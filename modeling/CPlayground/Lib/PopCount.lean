import CPlayground.Lib.ZeroByte

namespace CPlayground.PopCount

open Bytes ZeroByte

/-!
# Counting the ones of a word

The count in parallel, in words of any number of bytes: first the ones of every pair of bits, then
of every four, then of every byte.

* `ones w n` — how many of the lowest `w` bits are set.
* `pairs_cons`, `fours_cons`, `eights_cons` — each step works on the lowest byte and on the others
  separately.
* `eights_decode` — at the end every byte is the number of its ones.
* `LowestBit n t` — the lowest bit that is set.
* `ones_pred` — the number before `n` has all the bits below this one instead of it.
-/

/-- How many of the lowest `w` bits are set. -/
def ones : Nat → Nat → Nat
  | 0,     _ => 0
  | w + 1, n => n % 2 + ones w (n / 2)

variable {k x b w n t : Nat}

/-- The lowest bit, and the bits above it. -/
theorem ones_succ (w n : Nat) : ones (w + 1) n = n % 2 + ones w (n / 2) := rfl

/-- The bits of two parts of a number. -/
theorem ones_add (v w n : Nat) : ones (v + w) n = ones v n + ones w (n / 2 ^ v) := by
  induction v generalizing n with
  | zero => simp [ones]
  | succ v ih =>
    rw [Nat.succ_add, ones_succ, ih, ones_succ, Nat.div_div_eq_div_mul, ← Nat.pow_succ',
      Nat.add_assoc]

/-- There are at most as many ones as bits. -/
theorem ones_le (w n : Nat) : ones w n ≤ w := by
  induction w generalizing n with
  | zero => exact Nat.le_refl 0
  | succ w ih =>
    have hle := ih (n / 2)
    rw [ones_succ]
    omega

/-- Bits above the width do not count. -/
theorem ones_mod (w n : Nat) : ones w (n % 2 ^ w) = ones w n := by
  induction w generalizing n with
  | zero => rfl
  | succ w ih =>
    have hlow : n % 2 ^ (w + 1) % 2 = n % 2 :=
      Nat.mod_mod_of_dvd n (Dvd.intro_left (2 ^ w) rfl)
    have hhigh : n % 2 ^ (w + 1) / 2 = n / 2 % 2 ^ w := by
      rw [Nat.pow_succ', Nat.mod_mul_right_div_self]
    rw [ones_succ, ones_succ, hlow, hhigh, ih]

/-- The ones of a word are those of its bytes. -/
theorem ones_decode (bs : List UInt8) :
    ones (8 * bs.length) (decode bs) = bs.foldr (fun b y => ones 8 b.toNat + y) 0 := by
  induction bs with
  | nil => rfl
  | cons b bs ih =>
    have hb := b.toNat_lt
    have hcons : decode (b :: bs) = b.toNat + 256 * decode bs := rfl
    have hlow : (b.toNat + 256 * decode bs) % 2 ^ 8 = b.toNat := by omega
    have hhigh : (b.toNat + 256 * decode bs) / 2 ^ 8 = decode bs := by omega
    rw [List.length_cons, Nat.mul_succ, Nat.add_comm, ones_add, ← ones_mod 8, hcons, hlow, hhigh,
      ih, List.foldr_cons]

/-! ### The steps -/

/-- `x - ((x >> 1) & 0x55…55)` for a word of `k` bytes. -/
def pairs (k x : Nat) : Nat := x - (x / 2 &&& repeated k 0x55)

/-- `(x & 0x33…33) + ((x >> 2) & 0x33…33)` for a word of `k` bytes. -/
def fours (k x : Nat) : Nat := (x &&& repeated k 0x33) + (x / 4 &&& repeated k 0x33)

/-- `(x + (x >> 4)) & 0x0f…0f` for a word of `k` bytes. -/
def eights (k x : Nat) : Nat := (x + x / 16) &&& repeated k 0x0f

/-- The bit that is shifted into the lowest byte is masked, and nothing is borrowed. -/
theorem pairs_cons (hb : b < 256) :
    pairs (k + 1) (b + 256 * x) = (b - (b / 2 &&& 0x55)) + 256 * pairs k x := by
  have hmask : ∀ b < 256, ∀ c < 2, b / 2 + 128 * c &&& 0x55 = b / 2 &&& 0x55 := by decide +kernel
  have hshift : (b + 256 * x) / 2 = (b / 2 + 128 * (x % 2)) + 256 * (x / 2) := by omega
  have hle : b / 2 &&& 0x55 ≤ b / 2 := Nat.and_le_left
  have hle' : x / 2 &&& repeated k 0x55 ≤ x / 2 := Nat.and_le_left
  rw [pairs, hshift, repeated_succ, and_bytes (by omega) (by decide)]
  show _ - ((b / 2 + 128 * (x % 2) &&& 0x55) + _) = _
  rw [hmask b hb _ (Nat.mod_lt _ (by decide)), pairs]
  omega

/-- The two bits that are shifted into the lowest byte are masked. -/
theorem fours_cons (hb : b < 256) :
    fours (k + 1) (b + 256 * x) = ((b &&& 0x33) + (b / 4 &&& 0x33)) + 256 * fours k x := by
  have hmask : ∀ b < 256, ∀ c < 4, b / 4 + 64 * c &&& 0x33 = b / 4 &&& 0x33 := by decide +kernel
  have hshift : (b + 256 * x) / 4 = (b / 4 + 64 * (x % 4)) + 256 * (x / 4) := by omega
  rw [fours, hshift, repeated_succ, and_bytes hb (by decide), and_bytes (by omega) (by decide)]
  show (b &&& 0x33) + _ + ((b / 4 + 64 * (x % 4) &&& 0x33) + _) = _
  rw [hmask b hb _ (Nat.mod_lt _ (by decide)), fours]
  omega

/-- No four bits are more than 4, so the sums do not carry. -/
theorem eights_cons (hb : b ≤ 0x44) (hx : x % 16 ≤ 4) :
    eights (k + 1) (b + 256 * x) = (b + b / 16) % 16 + 256 * eights k x := by
  have hsum : b + 256 * x + (b + 256 * x) / 16
      = (b + b / 16 + 16 * (x % 16)) + 256 * (x + x / 16) := by omega
  have hmask : b + b / 16 + 16 * (x % 16) &&& 0x0f = (b + b / 16 + 16 * (x % 16)) % 2 ^ 4 :=
    Nat.and_two_pow_sub_one_eq_mod _ 4
  rw [eights, hsum, repeated_succ, and_bytes (by omega) (by decide)]
  show (b + b / 16 + 16 * (x % 16) &&& 0x0f) + _ = _
  rw [hmask, eights]
  omega

/-- What the first two steps make of a byte. -/
def foursOf (b : Nat) : Nat :=
  ((b - (b / 2 &&& 0x55)) &&& 0x33) + ((b - (b / 2 &&& 0x55)) / 4 &&& 0x33)

/-- The sums of four bits in a byte: none of the two is above four, and together they are the ones
    of the byte. -/
theorem foursOf_spec (hb : b < 256) :
    foursOf b ≤ 0x44 ∧ foursOf b % 16 ≤ 4 ∧ (foursOf b + foursOf b / 16) % 16 = ones 8 b := by
  have hbyte : ∀ b < 256, foursOf b ≤ 0x44 ∧ foursOf b % 16 ≤ 4 ∧
      (foursOf b + foursOf b / 16) % 16 = ones 8 b := by decide +kernel
  exact hbyte b hb

/-- The second step works on the lowest byte and on the others apart. -/
theorem fours_pairs_cons (hb : b < 256) :
    fours (k + 1) (pairs (k + 1) (b + 256 * x)) = foursOf b + 256 * fours k (pairs k x) := by
  rw [pairs_cons hb, fours_cons (by omega), foursOf]

/-- **The number of ones of every byte.**  After the three steps each byte of the word has the count
    of its own bits, and none of the sums has run over into the next one. -/
theorem eights_decode (bs : List UInt8) :
    eights bs.length (fours bs.length (pairs bs.length (decode bs)))
      = bs.foldr (fun b y => ones 8 b.toNat + 256 * y) 0 := by
  induction bs with
  | nil => rfl
  | cons b bs ih =>
    have hcons : decode (b :: bs) = b.toNat + 256 * decode bs := rfl
    obtain ⟨hle, -, hones⟩ := foursOf_spec b.toNat_lt
    have hnext : fours bs.length (pairs bs.length (decode bs)) % 16 ≤ 4 := by
      cases bs with
      | nil => decide
      | cons b' bs =>
        have hcons' : decode (b' :: bs) = b'.toNat + 256 * decode bs := rfl
        have hmod := (foursOf_spec b'.toNat_lt).2.1
        rw [hcons', List.length_cons, fours_pairs_cons b'.toNat_lt]
        omega
    rw [hcons, List.length_cons, fours_pairs_cons b.toNat_lt, eights_cons hle hnext, ih, hones,
      List.foldr_cons]

/-! ### The lowest bit -/

/-- The bit `t` is the lowest one that is set: it is set, and the bits below it are not. -/
structure LowestBit (n t : Nat) : Prop where
  one : n.testBit t = true
  zeros : ∀ i < t, n.testBit i = false

/-- In an odd number it is the first one. -/
theorem LowestBit.of_odd (h : LowestBit n t) (hn : n % 2 = 1) : t = 0 := by
  by_contra hne
  have hzero := h.zeros 0 (Nat.pos_of_ne_zero hne)
  rw [Nat.testBit_zero, hn] at hzero
  cases hzero

/-- In an even number it is one of the others. -/
theorem LowestBit.of_even (h : LowestBit n t) (hn : n % 2 = 0) :
    ∃ s, t = s + 1 ∧ LowestBit (n / 2) s := by
  cases t with
  | zero =>
    have hone := h.one
    rw [Nat.testBit_zero, hn] at hone
    cases hone
  | succ s =>
    refine ⟨s, rfl, ?_, fun i hi => ?_⟩
    · rw [← Nat.testBit_succ]
      exact h.one
    · rw [← Nat.testBit_succ]
      exact h.zeros (i + 1) (Nat.succ_lt_succ hi)

/-- A number with a lowest bit is not zero. -/
theorem LowestBit.ne_zero (h : LowestBit n t) : n ≠ 0 := by
  rintro rfl
  have hone := h.one
  rw [Nat.zero_testBit] at hone
  cases hone

/-- The zeros below the lowest one are not counted. -/
theorem LowestBit.add_ones_le (h : LowestBit n t) (hn : n < 2 ^ w) : t + ones w n ≤ w := by
  induction w generalizing n t with
  | zero => exact absurd (Nat.lt_one_iff.mp hn) h.ne_zero
  | succ w ih =>
    have hhalf : n / 2 < 2 ^ w := by omega
    rw [ones_succ]
    rcases Nat.mod_two_eq_zero_or_one n with heven | hodd
    · obtain ⟨s, rfl, hs⟩ := h.of_even heven
      have hle := ih hs hhalf
      omega
    · have hle := ones_le w (n / 2)
      rw [h.of_odd hodd]
      omega

/-- **The number before.**  The bits above the lowest one stay, it is cleared itself, and all bits
    below it are set. -/
theorem LowestBit.ones_pred (h : LowestBit n t) (hn : n < 2 ^ w) :
    ones w (n - 1) + 1 = t + ones w n := by
  induction w generalizing n t with
  | zero => exact absurd (Nat.lt_one_iff.mp hn) h.ne_zero
  | succ w ih =>
    have hne := h.ne_zero
    rw [ones_succ, ones_succ]
    rcases Nat.mod_two_eq_zero_or_one n with heven | hodd
    · -- the lowest bit becomes a one, and the rest is the number before the half
      obtain ⟨s, rfl, hs⟩ := h.of_even heven
      have hrec := ih hs (by omega)
      have hhalf : (n - 1) / 2 = n / 2 - 1 := by omega
      rw [hhalf]
      omega
    · have hhalf : (n - 1) / 2 = n / 2 := by omega
      rw [h.of_odd hodd, hhalf]
      omega

/-- Zero is the only number without ones. -/
theorem ones_eq_zero_iff (hn : n < 2 ^ w) : ones w n = 0 ↔ n = 0 := by
  induction w generalizing n with
  | zero => exact iff_of_true rfl (Nat.lt_one_iff.mp hn)
  | succ w ih =>
    have hrec := ih (n := n / 2) (by omega)
    rw [ones_succ]
    omega

/-- **A single one** is a power of two.  By induction on the width: an even number is twice its
    half, and an odd one with a single one is 1. -/
theorem ones_eq_one_iff (hn : n < 2 ^ w) : ones w n = 1 ↔ ∃ k, n = 2 ^ k := by
  induction w generalizing n with
  | zero =>
    obtain rfl := Nat.lt_one_iff.mp hn
    exact iff_of_false (by decide) fun ⟨k, hk⟩ => (Nat.two_pow_pos k).ne hk
  | succ w ih =>
    have hhalf : n / 2 < 2 ^ w := by omega
    rw [ones_succ]
    -- an even number has the ones of its half, and an odd one has one more
    rcases Nat.mod_two_eq_zero_or_one n with heven | hodd
    · rw [heven, Nat.zero_add, ih hhalf]
      constructor
      · rintro ⟨k, hk⟩
        exact ⟨k + 1, by rw [Nat.pow_succ]; omega⟩
      · rintro ⟨k, rfl⟩
        cases k with
        | zero => cases heven
        | succ k => exact ⟨k, by rw [Nat.pow_succ]; omega⟩
    · have hzero := ones_eq_zero_iff hhalf
      constructor
      · intro hone
        exact ⟨0, by rw [Nat.pow_zero]; omega⟩
      · rintro ⟨k, rfl⟩
        cases k with
        | zero => omega
        | succ k =>
          rw [Nat.pow_succ] at hodd
          omega

end CPlayground.PopCount
