import CPlayground.Lib.PopCount
import Mathlib.Data.UInt

namespace CPlayground.Ctz

open Bytes PopCount ZeroByte

/-!
# `ctz.c`

Two functions for the number of trailing zeros of a word.  The first one isolates the lowest bit
and finds its place; the second one counts the ones of the number before.

* `isolated_eq` — `x & -x` is the lowest bit, whose place `ctz` finds.
* `toNat_ctz2` — `ctz2` is the number of ones of `x - 1`.
* `trailing_zeros` — below the lowest bit these are the trailing zeros, but the bits above it are
  counted too, so `ctz2` is right for powers of two only.
-/

/-- `__ctz(x)`. -/
def ctz (x : UInt32) : UInt32 :=
  if x ≠ 0 then
    let x : UInt32 := x &&& -x
    let c : UInt32 := ((4 : UInt32) <<< 3) - 1
    -- each mask has the lower half of the places that are left
    let c := if x &&& 0x0000ffff ≠ 0 then c - 16 else c
    let c := if x &&& 0x00ff00ff ≠ 0 then c - 8 else c
    let c := if x &&& 0x0f0f0f0f ≠ 0 then c - 4 else c
    let c := if x &&& 0x33333333 ≠ 0 then c - 2 else c
    let c := if x &&& 0x55555555 ≠ 0 then c - 1 else c
    c
  else -1

/-- `__ctz2(x)`. -/
def ctz2 (x : UInt32) : UInt32 :=
  if x ≠ 0 then
    let x : UInt32 := x - 1
    let x : UInt32 := x - ((x >>> 1) &&& 0x55555555)
    let x : UInt32 := (x &&& (0x33333333 : UInt32)) + ((x >>> 2) &&& 0x33333333)
    let x : UInt32 := (x + (x >>> 4)) &&& 0x0f0f0f0f
    let x : UInt32 := x + (x >>> 8)
    let x : UInt32 := x + (x >>> 16)
    -- the `return` with the mask 0x3f behind this one is not reached
    x &&& 0x1f
  else -1

variable {x : UInt32}

/-! ### The first function -/

/-- The specification: the number of trailing zeros is the place of the lowest bit. -/
theorem lowestBit_ctz (hx : x ≠ 0) : LowestBit x.toNat x.toBitVec.ctz.toNat := by
  have hne : x.toBitVec ≠ 0#32 := fun h => hx (UInt32.toBitVec_inj.mp h)
  exact ⟨BitVec.getLsbD_true_ctz_of_ne_zero hne, fun i hi => BitVec.getLsbD_false_of_lt_ctz hi⟩

/-- A place is below 32. -/
theorem ctz_lt (hx : x ≠ 0) : x.toBitVec.ctz.toNat < 32 := by
  have hne : x.toBitVec ≠ 0#32 := fun h => hx (UInt32.toBitVec_inj.mp h)
  exact BitVec.ctz_lt_iff_ne_zero.mpr hne

/-- The bits below the lowest one and above it are cleared: `-x` is the complement of `x` with one
    added, so the two words have only the lowest one in common. -/
theorem isolated_eq (hx : x ≠ 0) :
    x &&& -x = UInt32.ofBitVec (BitVec.twoPow 32 x.toBitVec.ctz.toNat) := by
  obtain ⟨hone, hzeros⟩ := lowestBit_ctz hx
  apply UInt32.toBitVec_inj.mp
  apply BitVec.eq_of_getLsbD_eq
  intro i hi
  rw [UInt32.toBitVec_and, UInt32.toBitVec_neg, BitVec.getLsbD_and, BitVec.getLsbD_neg,
    BitVec.getLsbD_twoPow]
  rcases Nat.lt_trichotomy i x.toBitVec.ctz.toNat with hlt | heq | hgt
  · have hbit : x.toBitVec.getLsbD i = false := hzeros i hlt
    simp [hbit, hlt.ne']
  · subst heq
    have hbit : x.toBitVec.getLsbD x.toBitVec.ctz.toNat = true := hone
    have hnone : ¬ ∃ j < x.toBitVec.ctz.toNat, x.toBitVec.getLsbD j = true := by
      rintro ⟨j, hj, hbit'⟩
      have hzero : x.toBitVec.getLsbD j = false := hzeros j hj
      rw [hzero] at hbit'
      cases hbit'
    simp [hbit, hnone, hi]
  · -- a bit above the lowest one is inverted by the negation
    have hsome : ∃ j < i, x.toBitVec.getLsbD j = true := ⟨_, hgt, hone⟩
    simp [hsome, hi, hgt.ne]

/-- **`ctz` is right** for every word but zero: what is left of the word is its lowest bit, and each
    mask tells one bit of the place of it. -/
theorem toBitVec_ctz (hx : x ≠ 0) : (ctz x).toBitVec = x.toBitVec.ctz := by
  have hlt := ctz_lt hx
  rw [ctz, if_pos hx]
  simp only [isolated_eq hx]
  -- only the place of the bit is left, one of 32
  generalize x.toBitVec.ctz = z at hlt
  obtain ⟨t, rfl⟩ : ∃ t : Fin 32, z = BitVec.ofNat 32 t :=
    ⟨⟨z.toNat, hlt⟩, (BitVec.ofNat_toNat 32 z).symm⟩
  revert t
  decide +kernel

/-! ### The second function -/

/-- The first step of `ctz2` counts in pairs of bits, and borrows nothing. -/
theorem toNat_pairs (y : UInt32) :
    (y - ((y >>> 1) &&& 0x55555555)).toNat = pairs 4 y.toNat := by
  have hmask : repeated 4 0x55 = (0x55555555 : UInt32).toNat := by decide
  have hand : ((y >>> 1) &&& 0x55555555).toNat = y.toNat / 2 &&& repeated 4 0x55 := by
    rw [hmask, UInt32.toNat_and, UInt32.toNat_shiftRight, Nat.shiftRight_eq_div_pow]
    rfl
  have hle : y.toNat / 2 &&& repeated 4 0x55 ≤ y.toNat / 2 := Nat.and_le_left
  rw [UInt32.toNat_sub_of_le, hand, pairs]
  rw [UInt32.le_iff_toNat_le, hand]
  omega

/-- The second sums are at most four in every four bits. -/
theorem fours_lt (n : Nat) : fours 4 n ≤ 2 * 0x33333333 := by
  have hmask : repeated 4 0x33 = 0x33333333 := by decide
  have hlow : n &&& repeated 4 0x33 ≤ repeated 4 0x33 := Nat.and_le_right
  have hhigh : n / 4 &&& repeated 4 0x33 ≤ repeated 4 0x33 := Nat.and_le_right
  rw [fours]
  omega

/-- The second step counts in fours. -/
theorem toNat_fours (y : UInt32) :
    ((y &&& (0x33333333 : UInt32)) + ((y >>> 2) &&& 0x33333333)).toNat = fours 4 y.toNat := by
  have hmask : repeated 4 0x33 = (0x33333333 : UInt32).toNat := by decide
  have hshift : ((y >>> 2) &&& 0x33333333).toNat = y.toNat / 4 &&& repeated 4 0x33 := by
    rw [hmask, UInt32.toNat_and, UInt32.toNat_shiftRight, Nat.shiftRight_eq_div_pow]
    rfl
  have hlt := fours_lt y.toNat
  rw [UInt32.toNat_add, hshift, UInt32.toNat_and, ← hmask]
  exact Nat.mod_eq_of_lt (by rw [fours] at hlt; omega)

/-- The third step counts in bytes. -/
theorem toNat_eights {y : UInt32} (hy : y.toNat ≤ 2 * 0x33333333) :
    ((y + (y >>> 4)) &&& 0x0f0f0f0f).toNat = eights 4 y.toNat := by
  have hmask : repeated 4 0x0f = (0x0f0f0f0f : UInt32).toNat := by decide
  have hshift : (y >>> 4).toNat = y.toNat / 16 := by
    rw [UInt32.toNat_shiftRight, Nat.shiftRight_eq_div_pow]
    rfl
  rw [UInt32.toNat_and, UInt32.toNat_add, hshift, ← hmask, Nat.mod_eq_of_lt (by omega), eights]

/-- The last steps add up the four bytes.  Each is at most eight, so that no sum leaves its byte
    before the mask. -/
theorem toNat_folded {y : UInt32} {a b c d : Nat} (ha : a ≤ 8) (hb : b ≤ 8) (hc : c ≤ 8)
    (hd : d ≤ 8) (hy : y.toNat = a + 256 * (b + 256 * (c + 256 * (d + 256 * 0)))) :
    ((y + (y >>> 8) + ((y + (y >>> 8)) >>> 16)) &&& 0x1f).toNat = (a + b + c + d) % 32 := by
  have hshift : ∀ z : UInt32, (z >>> 8).toNat = z.toNat / 256 := by
    intro z
    rw [UInt32.toNat_shiftRight, Nat.shiftRight_eq_div_pow]
    rfl
  have hshift' : ∀ z : UInt32, (z >>> 16).toNat = z.toNat / 65536 := by
    intro z
    rw [UInt32.toNat_shiftRight, Nat.shiftRight_eq_div_pow]
    rfl
  have hmask : ∀ n : Nat, n &&& (0x1f : UInt32).toNat = n % 32 := fun n =>
    Nat.and_two_pow_sub_one_eq_mod n 5
  have hfirst : (y + (y >>> 8)).toNat
      = (a + b) + 256 * (b + c) + 65536 * (c + d) + 16777216 * d := by
    rw [UInt32.toNat_add, hshift]
    omega
  have hsecond : (y + (y >>> 8)).toNat / 65536 = (c + d) + 256 * d := by
    rw [hfirst]
    omega
  rw [UInt32.toNat_and, hmask, UInt32.toNat_add, hshift', hsecond, hfirst]
  omega

/-- **`ctz2`** counts the ones of the number before.  The steps sum them up in pairs, in fours and
    in bytes, and then the bytes are added. -/
theorem toNat_ctz2 (hx : x ≠ 0) : (ctz2 x).toNat = ones 32 (x.toNat - 1) := by
  obtain ⟨a, b, c, d, hbytes⟩ := word32_eq (x - 1)
  have hpos : x.toNat ≠ 0 := fun h => hx (UInt32.toNat_inj.mp h)
  have hpred : (x - 1).toNat = x.toNat - 1 := by
    rw [UInt32.toNat_sub_of_le]
    · rfl
    · rw [UInt32.le_iff_toNat_le]
      show 1 ≤ _
      omega
  have hword : decode [a, b, c, d] = (x - 1).toNat := by rw [← hbytes, decode_word32]
  have hones := ones_decode [a, b, c, d]
  have hsteps := eights_decode [a, b, c, d]
  rw [hword] at hones hsteps
  have hsum : ones 32 (x - 1).toNat
      = ones 8 a.toNat + ones 8 b.toNat + ones 8 c.toNat + ones 8 d.toNat := by
    simpa [Nat.add_assoc] using hones
  have hle := (lowestBit_ctz hx).add_ones_le x.toNat_lt
  have hpred' := (lowestBit_ctz hx).ones_pred x.toNat_lt
  -- `x - 1` is not the largest word, so the four counts make at most 31
  have hlt : ones 32 (x - 1).toNat < 32 := by
    rw [hpred]
    omega
  rw [ctz2, if_pos hx, ← hpred, hsum]
  rw [hsum] at hlt
  dsimp only
  -- the steps one after another, each with its meaning on the number of the word
  generalize x - 1 = y at hsteps ⊢
  have hpairs := toNat_pairs y
  generalize y - (y >>> 1 &&& 0x55555555) = p at hpairs ⊢
  have hfours := toNat_fours p
  generalize (p &&& (0x33333333 : UInt32)) + (p >>> 2 &&& 0x33333333) = f at hfours ⊢
  have heights := toNat_eights (y := f) (by rw [hfours]; exact fours_lt _)
  generalize (f + f >>> 4) &&& (0x0f0f0f0f : UInt32) = e at heights ⊢
  rw [hfours, hpairs] at heights
  rw [toNat_folded (ones_le 8 _) (ones_le 8 _) (ones_le 8 _) (ones_le 8 _) (heights.trans hsteps)]
  exact Nat.mod_eq_of_lt hlt

/-- **Trailing zeros.**  `ctz` counts them for every word but zero.  `ctz2` also counts the ones
    above the lowest one, so it is right exactly if there are none. -/
theorem trailing_zeros (hx : x ≠ 0) :
    (ctz x).toBitVec = x.toBitVec.ctz ∧
      ((ctz2 x).toBitVec = x.toBitVec.ctz ↔ ∃ k, x.toNat = 2 ^ k) := by
  have hpred := (lowestBit_ctz hx).ones_pred x.toNat_lt
  refine ⟨toBitVec_ctz hx, ?_⟩
  rw [← ones_eq_one_iff x.toNat_lt, ← BitVec.toNat_inj]
  show (ctz2 x).toNat = _ ↔ _
  rw [toNat_ctz2 hx]
  omega

/-- Both functions are right for a power of two. -/
theorem trailing_zeros_eight : (ctz 0x100).toBitVec = (0x100 : UInt32).toBitVec.ctz ∧
      (ctz2 0x100).toBitVec = (0x100 : UInt32).toBitVec.ctz :=
  have h := trailing_zeros (x := 0x100) (by decide)
  ⟨h.1, h.2.mpr ⟨8, rfl⟩⟩

/-- The word of `main` has eight trailing zeros, and `ctz2` says twelve. -/
theorem trailing_zeros_wrong :
    (0x1f00 : UInt32).toBitVec.ctz = 8 ∧ ctz 0x1f00 = 8 ∧ ctz2 0x1f00 = 12 := by
  decide +kernel

end CPlayground.Ctz
