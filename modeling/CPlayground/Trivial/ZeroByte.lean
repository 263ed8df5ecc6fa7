import CPlayground.Lib.ZeroByte

namespace CPlayground.ZeroByte

open Bytes

/-!
# `zero-byte.c`

Three tests for a zero byte in a word of 32 bits.

* `hasZeroByte1_iff`, `hasZeroByte2_iff` — the first two look at every byte.
* `hasZeroByte3_iff` — the third one drops the high bit of every byte, and takes `0x80` for zero.
-/

/-- `HAS_ZERO_BYTE1(x)`. -/
def hasZeroByte1 (x : UInt32) : Bool := !((word32 x).all fun p => p != 0)

/-- `HAS_ZERO_BYTE2(x)`. -/
def hasZeroByte2 (x : UInt32) : Bool :=
  !((x &&& 0xff) != 0 && (x &&& 0xff00) != 0 && (x &&& 0xff0000) != 0 && (x &&& 0xff000000) != 0)

/-- `HAS_ZERO_BYTE3(x)`. -/
def hasZeroByte3 (x : UInt32) : Bool := ~~~(((x &&& 0x7f7f7f7f) + 0x7f7f7f7f) ||| 0x7f7f7f7f) != 0

/-- **The first test** compares each byte with zero. -/
theorem hasZeroByte1_iff (x : UInt32) : hasZeroByte1 x = true ↔ 0 ∈ word32 x := by
  simp [hasZeroByte1]

/-- A mask, given by its bytes. -/
theorem and_mask_eq_zero {x m : UInt32} (bs : List UInt8) (hm : m.toNat = decode bs)
    (hlen : bs.length = 4) :
    x &&& m = 0 ↔ ∀ b ∈ List.zipWith (· &&& ·) (word32 x) bs, b = 0 := by
  have hlen' : (word32 x).length = bs.length := by rw [length_word32, hlen]
  rw [← decode_eq_zero_iff, ← decode_and hlen', decode_word32, ← hm, ← UInt32.toNat_and,
    ← UInt32.toNat_inj]
  rfl

/-- **The second test** is right, too: a borrow out of a byte only comes from a zero byte. -/
theorem hasZeroByte2_iff (x : UInt32) : hasZeroByte2 x = true ↔ 0 ∈ word32 x := by
  obtain ⟨a, b, c, d, hx⟩ := word32_eq x
  have hall : ∀ y : UInt8, y &&& 0xff = y := fun y => UInt8.and_neg_one
  have h₀ : x &&& 0xff = 0 ↔ a = 0 := by
    rw [and_mask_eq_zero [0xff, 0, 0, 0] (by decide) rfl, hx]
    simp [hall]
  have h₁ : x &&& 0xff00 = 0 ↔ b = 0 := by
    rw [and_mask_eq_zero [0, 0xff, 0, 0] (by decide) rfl, hx]
    simp [hall]
  have h₂ : x &&& 0xff0000 = 0 ↔ c = 0 := by
    rw [and_mask_eq_zero [0, 0, 0xff, 0] (by decide) rfl, hx]
    simp [hall]
  have h₃ : x &&& 0xff000000 = 0 ↔ d = 0 := by
    rw [and_mask_eq_zero [0, 0, 0, 0xff] (by decide) rfl, hx]
    simp [hall]
  rw [hasZeroByte2, hx]
  simp only [Bool.not_eq_true', Bool.and_eq_false_iff, bne_eq_false_iff_eq, h₀, h₁, h₂, h₃,
    List.mem_cons, List.not_mem_nil, or_false, eq_comm (a := (0 : UInt8)), or_assoc]

/-- The number of the third test. -/
theorem toNat_lowBits (x : UInt32) :
    (~~~(((x &&& 0x7f7f7f7f) + 0x7f7f7f7f) ||| 0x7f7f7f7f)).toNat = lowBits 4 x.toNat := by
  have hmask : repeated 4 0x7f = (0x7f7f7f7f : UInt32).toNat := by decide
  rw [lowBits, hmask, UInt32.toNat_not, UInt32.toNat_or, UInt32.toNat_add, UInt32.toNat_and]
  rfl

/-- **The third test** takes `0x80` for a zero byte. -/
theorem hasZeroByte3_iff (x : UInt32) :
    hasZeroByte3 x = true ↔ 0 ∈ word32 x ∨ 0x80 ∈ word32 x := by
  have htest := lowBits_eq_zero_iff (word32 x)
  rw [length_word32, decode_word32, ← toNat_lowBits] at htest
  rw [hasZeroByte3, bne_iff_ne, Ne, ← UInt32.toNat_inj]
  show ¬ _ = 0 ↔ _
  rw [htest, not_and_or, not_not, not_not]

end CPlayground.ZeroByte
