import CPlayground.Lib.Bytes

namespace CPlayground.ZeroByte

open Bytes

/-!
# Looking for a zero byte in a word

Two tests on words of any number of bytes, `(x - 0x01…01) & ~x & 0x80…80` and
`~(((x & 0x7f…7f) + 0x7f…7f) | 0x7f…7f)`.

* `and_bytes`, `or_bytes`, `decode_and` — a bitwise operation works on the lowest byte and on the
  others separately.
* `hasZero_eq_zero_iff` — the first test is exact: it is zero if and only if no byte is.
* `lowBits_eq_zero_iff` — the second one looks at the seven low bits of a byte only, so that it is
  zero if and only if no byte is `0` or `0x80`.

In the first test a zero byte borrows from the bytes above it, so those may be reported wrongly, but
it is reported itself; below the lowest zero nothing is borrowed.
-/

/-- The word with the same byte everywhere. -/
def repeated (k : Nat) (b : UInt8) : Nat := decode (List.replicate k b)

/-- `(x - 0x01…01) & ~x & 0x80…80` for a word of `k` bytes. -/
def hasZero (k x : Nat) : Nat :=
  (x + 256 ^ k - repeated k 1) % 256 ^ k &&& (256 ^ k - 1 - x) &&& repeated k 0x80

variable {k x p q r s : Nat}

/-- The lowest byte of a repeated one, and the bytes above it. -/
theorem repeated_succ (k : Nat) (b : UInt8) :
    repeated (k + 1) b = b.toNat + 256 * repeated k b := rfl

/-- A word of `k` bytes is below `256 ^ k`. -/
theorem repeated_lt (k : Nat) (b : UInt8) : repeated k b < 256 ^ k := by
  have h := decode_lt (List.replicate k b)
  rwa [List.length_replicate] at h

/-- `&` works on the lowest byte and on the others apart. -/
theorem and_bytes (hp : p < 256) (hr : r < 256) :
    (p + 256 * q) &&& (r + 256 * s) = (p &&& r) + 256 * (q &&& s) := by
  have hlow : ((p + 256 * q) &&& (r + 256 * s)) % 2 ^ 8 = p &&& r := by
    rw [Nat.and_mod_two_pow]
    congr <;> omega
  have hhigh : ((p + 256 * q) &&& (r + 256 * s)) / 2 ^ 8 = q &&& s := by
    rw [Nat.and_div_two_pow]
    congr <;> omega
  omega

/-- A bitwise operation works on the bytes. -/
theorem decode_and {as bs : List UInt8} (h : as.length = bs.length) :
    decode as &&& decode bs = decode (List.zipWith (· &&& ·) as bs) := by
  induction as generalizing bs with
  | nil => exact Nat.zero_and _
  | cons a as ih =>
    cases bs with
    | nil => exact absurd h (by simp)
    | cons b bs =>
      show (a.toNat + 256 * decode as) &&& (b.toNat + 256 * decode bs)
        = (a &&& b).toNat + 256 * decode (List.zipWith (· &&& ·) as bs)
      rw [and_bytes a.toNat_lt b.toNat_lt, ih (Nat.succ.inj h), UInt8.toNat_and]

/-- The lowest byte and the others of a difference. -/
theorem mod_bytes (hp : p < 256) : (p + 256 * q) % 256 ^ (k + 1) = p + 256 * (q % 256 ^ k) := by
  have hlow : (p + 256 * q) % 256 = p := by omega
  have hhigh : (p + 256 * q) / 256 = q := by omega
  rw [pow_succ', Nat.mod_mul, hlow, hhigh]

/-- So does the complement, as it borrows nothing from the bytes above. -/
theorem not_bytes {b : Nat} (hb : b < 256) (hx : x < 256 ^ k) :
    256 ^ (k + 1) - 1 - (b + 256 * x) = (255 - b) + 256 * (256 ^ k - 1 - x) := by
  rw [pow_succ']
  omega

/-- A lowest byte that is not zero is not reported, and nothing is borrowed for it. -/
theorem hasZero_of_ne {b : Nat} (hb : b < 256) (hne : b ≠ 0) (hx : x < 256 ^ k) :
    hasZero (k + 1) (b + 256 * x) = 256 * hasZero k x := by
  have hones := repeated_lt k 1
  have hsub : b + 256 * x + 256 ^ (k + 1) - repeated (k + 1) 1
      = (b - 1) + 256 * (x + 256 ^ k - repeated k 1) := by
    rw [repeated_succ, pow_succ']
    show _ - (1 + _) = _
    omega
  have hbyte : ∀ b < 256, b ≠ 0 → (b - 1) &&& (255 - b) &&& 0x80 = 0 := by decide +kernel
  have hlow : (b - 1) &&& (255 - b) < 256 := Nat.and_lt_two_pow _ (n := 8) (by omega)
  rw [hasZero, hsub, mod_bytes (by omega), not_bytes hb hx, and_bytes (by omega) (by omega),
    repeated_succ, and_bytes hlow (by decide)]
  show ((b - 1) &&& (255 - b) &&& 0x80) + _ = _
  rw [hbyte b hb hne, Nat.zero_add, hasZero]

/-- A lowest byte that is zero is reported. -/
theorem hasZero_of_zero (hx : x < 256 ^ k) : hasZero (k + 1) (0 + 256 * x) ≠ 0 := by
  have hones := repeated_lt k 1
  have hsub : 0 + 256 * x + 256 ^ (k + 1) - repeated (k + 1) 1
      = 255 + 256 * (x + 256 ^ k - repeated k 1 - 1) := by
    rw [repeated_succ, pow_succ']
    show _ - (1 + _) = _
    omega
  rw [hasZero, hsub, mod_bytes (by decide), not_bytes (by decide) hx, and_bytes (by decide)
    (by decide), repeated_succ, and_bytes (by decide) (by decide)]
  show 0x80 + _ ≠ 0
  omega

/-- **The test is exact**: the word has a zero byte exactly if the result is not zero, in spite of
    the borrows between the bytes. -/
theorem hasZero_eq_zero_iff (bs : List UInt8) : hasZero bs.length (decode bs) = 0 ↔ 0 ∉ bs := by
  induction bs with
  | nil => decide
  | cons b bs ih =>
    have hcons : decode (b :: bs) = b.toNat + 256 * decode bs := rfl
    rw [hcons, List.length_cons, List.mem_cons, not_or]
    -- the lowest byte is reported itself, or is no matter for the others
    by_cases hb : b = 0
    · subst hb
      exact iff_of_false (hasZero_of_zero (decode_lt bs)) (fun h => h.1 rfl)
    · have hne : b.toNat ≠ 0 := fun h => hb (UInt8.toNat_inj.mp h)
      rw [hasZero_of_ne b.toNat_lt hne (decode_lt bs), Nat.mul_eq_zero, ih]
      simp [Ne.symm hb]

/-! ### The seven low bits -/

/-- `~(((x & 0x7f…7f) + 0x7f…7f) | 0x7f…7f)` for a word of `k` bytes. -/
def lowBits (k x : Nat) : Nat :=
  256 ^ k - 1 - (((x &&& repeated k 0x7f) + repeated k 0x7f) % 256 ^ k ||| repeated k 0x7f)

/-- And so does `|`. -/
theorem or_bytes (hp : p < 256) (hr : r < 256) :
    (p + 256 * q) ||| (r + 256 * s) = (p ||| r) + 256 * (q ||| s) := by
  have hlow : ((p + 256 * q) ||| (r + 256 * s)) % 2 ^ 8 = p ||| r := by
    rw [Nat.or_mod_two_pow]
    congr <;> omega
  have hhigh : ((p + 256 * q) ||| (r + 256 * s)) / 2 ^ 8 = q ||| s := by
    rw [Nat.or_div_two_pow]
    congr <;> omega
  omega

/-- The bytes do not disturb each other: there is no carry, as the sum in each byte is at most
    `0xfe`. -/
theorem lowBits_cons {b : Nat} (hb : b < 256) :
    lowBits (k + 1) (b + 256 * x)
      = (255 - ((b &&& 0x7f) + 0x7f ||| 0x7f)) + 256 * lowBits k x := by
  have hbyte : ∀ b < 256, (b &&& 0x7f) + 0x7f < 256 ∧ ((b &&& 0x7f) + 0x7f ||| 0x7f) < 256 := by
    decide +kernel
  obtain ⟨hsum, hor⟩ := hbyte b hb
  have hmask := repeated_lt k 0x7f
  have hand : (b + 256 * x) &&& repeated (k + 1) 0x7f
      = (b &&& 0x7f) + 256 * (x &&& repeated k 0x7f) := and_bytes hb (by decide)
  have hadd : (b &&& 0x7f) + 256 * (x &&& repeated k 0x7f) + repeated (k + 1) 0x7f
      = ((b &&& 0x7f) + 0x7f) + 256 * ((x &&& repeated k 0x7f) + repeated k 0x7f) := by
    rw [repeated_succ]
    show _ + (0x7f + _) = _
    omega
  have hlt : ((x &&& repeated k 0x7f) + repeated k 0x7f) % 256 ^ k ||| repeated k 0x7f
      < 256 ^ k := by
    have hpow : 256 ^ k = 2 ^ (8 * k) := (pow_mul 2 8 k).symm
    rw [hpow] at hmask ⊢
    exact Nat.or_lt_two_pow (Nat.mod_lt _ (Nat.two_pow_pos _)) hmask
  rw [lowBits, hand, hadd, mod_bytes hsum, repeated_succ, or_bytes hsum (by decide)]
  exact not_bytes hor hlt

/-- **The test of the low bits** takes every byte without its high bit, so it finds `0x80` as well
    as zero. -/
theorem lowBits_eq_zero_iff (bs : List UInt8) :
    lowBits bs.length (decode bs) = 0 ↔ (0 ∉ bs ∧ 0x80 ∉ bs) := by
  induction bs with
  | nil => decide
  | cons b bs ih =>
    have hbyte : ∀ b < 256, 255 - ((b &&& 0x7f) + 0x7f ||| 0x7f) = 0 ↔ (b ≠ 0 ∧ b ≠ 0x80) := by
      decide +kernel
    have hcons : decode (b :: bs) = b.toNat + 256 * decode bs := rfl
    have hzero : b.toNat ≠ 0 ↔ 0 ≠ b := by
      rw [ne_comm (a := (0 : UInt8)), Ne, Ne, ← UInt8.toNat_inj]
      rfl
    have hhigh : b.toNat ≠ 0x80 ↔ 0x80 ≠ b := by
      rw [ne_comm (a := (0x80 : UInt8)), Ne, Ne, ← UInt8.toNat_inj]
      rfl
    have hothers : 256 * lowBits bs.length (decode bs) = 0 ↔ lowBits bs.length (decode bs) = 0 := by
      omega
    rw [hcons, List.length_cons, lowBits_cons b.toNat_lt, Nat.add_eq_zero_iff,
      hbyte b.toNat b.toNat_lt, hothers, ih, hzero, hhigh, List.mem_cons, List.mem_cons, not_or,
      not_or, and_and_and_comm]

end CPlayground.ZeroByte
