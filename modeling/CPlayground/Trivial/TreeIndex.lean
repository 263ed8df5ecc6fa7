import Mathlib.Data.Nat.Log
import Mathlib.Data.UInt

namespace CPlayground.NAHeap

/-!
# `bitmap.cpp`

The bin of a chunk in the trees of a heap. Between 256 bytes and 16 MiB every power of two has two
bins, so the index is twice a logarithm and one more bit. The logarithm is computed by an
instruction or, where there is none, by shifting.

* `shiftMask_eq` — both ways give the same logarithm.
* `toNat_computeTreeIndex` — the index is `bin`, which grows with the size.
-/

/-- `TREEBIN_SHIFT`. -/
def treebinShift : UInt32 := 8

/-- `NTREEBINS`. -/
def ntreebins : UInt32 := 32

/-- `bsrl`, the index of the highest bit that is set. -/
def bsrl (x : UInt64) : UInt32 := UInt32.ofNat x.toNat.log2

/-- The same without the instruction, for `x ≤ 0xFFFF`. -/
def shiftMask (x : UInt64) : UInt32 :=
  let y := x.toUInt32
  let n := ((y - 0x100) >>> 16) &&& 8
  let y := y <<< n
  let k := ((y - 0x1000) >>> 16) &&& 4
  let n := n + k
  -- in `n += k = (((y <<= k) - 0x4000) >> 16) & 2` the shift is by the old `k`
  let y := y <<< k
  let k := ((y - 0x4000) >>> 16) &&& 2
  let n := n + k
  let y := y <<< k
  (14 : UInt32) - n + (y >>> 15)

/-- `computeTreeIndex(size)`, in the build that finds the highest bit with `highest`. -/
def computeTreeIndex (highest : UInt64 → UInt32) (size : UInt64) : UInt32 :=
  let x := size >>> treebinShift.toUInt64
  if x = 0 then 0
  else if x > 0xFFFF then ntreebins - 1
  else
    let k := highest x
    ((k <<< 1).toUInt64 + ((size >>> (k + (treebinShift - 1)).toUInt64) &&& 1)).toUInt32

/-! ### The logarithm -/

/-- Shifting to the left adds to the logarithm. -/
theorem log2_mul_two_pow {n : Nat} (hn : n ≠ 0) (k : Nat) : (n * 2 ^ k).log2 = n.log2 + k := by
  induction k with
  | zero => rw [Nat.pow_zero, Nat.mul_one, Nat.add_zero]
  | succ k ih =>
    have hne : n * 2 ^ k ≠ 0 := Nat.mul_ne_zero hn (Nat.two_pow_pos k).ne'
    rw [Nat.pow_succ, ← Nat.mul_assoc, Nat.mul_comm _ 2, Nat.log2_two_mul hne, ih, Nat.add_assoc]

/-- The same in 32 bits, as long as nothing is shifted out. -/
theorem log2_shiftLeft {y k : UInt32} (hy : y.toNat ≠ 0) (hlt : y.toNat < 2 ^ 16)
    (hk : k.toNat ≤ 8) :
    (y <<< k).toNat ≠ 0 ∧ (y <<< k).toNat.log2 = y.toNat.log2 + k.toNat := by
  have hfits : y.toNat * 2 ^ k.toNat < 2 ^ 32 :=
    calc y.toNat * 2 ^ k.toNat
        < 2 ^ 16 * 2 ^ 8 :=
          Nat.mul_lt_mul_of_lt_of_le hlt (Nat.pow_le_pow_right (by decide) hk) (by decide)
      _ < 2 ^ 32 := by decide
  have hshift : (y <<< k).toNat = y.toNat * 2 ^ k.toNat := by
    rw [UInt32.toNat_shiftLeft, Nat.mod_eq_of_lt (by omega : k.toNat < 32), Nat.shiftLeft_eq,
      Nat.mod_eq_of_lt hfits]
  rw [hshift, log2_mul_two_pow hy]
  exact ⟨Nat.mul_ne_zero hy (Nat.two_pow_pos _).ne', rfl⟩

/-- The instruction computes the logarithm. -/
theorem toNat_bsrl {x : UInt64} (hx : x.toNat.log2 < 16) : (bsrl x).toNat = x.toNat.log2 := by
  rw [bsrl, UInt32.toNat_ofNat']
  exact Nat.mod_eq_of_lt (by omega)

/-- The difference wraps around exactly if `y` is below `t`, and then every bit of `b` is set. -/
theorem sub_shift_and {y t b : UInt32} (hy : y.toNat < 2 ^ 16) (ht : t.toNat < 2 ^ 16)
    (hb : 0xFFFF &&& b = b) :
    ((y - t) >>> 16) &&& b = if y.toNat < t.toNat then b else 0 := by
  have hshift : ((y - t) >>> 16).toNat = (2 ^ 32 - t.toNat + y.toNat) % 2 ^ 32 / 2 ^ 16 := by
    rw [UInt32.toNat_shiftRight, UInt32.toNat_sub, Nat.shiftRight_eq_div_pow]
    rfl
  split
  · have hones : (y - t) >>> 16 = 0xFFFF := by
      rw [← UInt32.toNat_inj, hshift]
      show _ = 65535
      omega
    rw [hones, hb]
  · have hzero : (y - t) >>> 16 = 0 := by
      rw [← UInt32.toNat_inj, hshift]
      show _ = 0
      omega
    rw [hzero, UInt32.zero_and]

/-- One step of the search: a number with `b` zeros on top is shifted by `b`, so that less than `b`
    are left. -/
theorem shift_step {y t b : UInt32} (hy : y.toNat ≠ 0) (hlog : y.toNat.log2 < 16)
    (hb : 0xFFFF &&& b = b) (hb₁ : 1 ≤ b.toNat) (hb₈ : b.toNat ≤ 8)
    (ht : t.toNat = 2 ^ (16 - b.toNat)) (hzeros : 16 - 2 * b.toNat ≤ y.toNat.log2) :
    ∃ k, ((y - t) >>> 16) &&& b = k ∧ (y <<< k).toNat ≠ 0 ∧
      (y <<< k).toNat.log2 = y.toNat.log2 + k.toNat ∧
      16 - b.toNat ≤ (y <<< k).toNat.log2 ∧ (y <<< k).toNat.log2 < 16 := by
  have hlt : y.toNat < 2 ^ 16 := (Nat.log2_lt hy).mp hlog
  have htop : t.toNat < 2 ^ 16 := by
    rw [ht]
    exact Nat.pow_lt_pow_right (by decide) (by omega)
  have hbelow := Nat.log2_lt (k := 16 - b.toNat) hy
  rw [← ht] at hbelow
  refine ⟨_, sub_shift_and hlt htop hb, ?_⟩
  split
  next h =>
    have hle := hbelow.mpr h
    obtain ⟨hne, hlog'⟩ := log2_shiftLeft hy hlt hb₈
    exact ⟨hne, hlog', by omega, by omega⟩
  next h =>
    have hle : ¬ y.toNat.log2 < 16 - b.toNat := fun h' => h (hbelow.mp h')
    rw [UInt32.shiftLeft_zero]
    exact ⟨hy, rfl, by omega, hlog⟩

/-- The last bit of the search. -/
theorem shiftRight_fifteen {y : UInt32} (hy : y.toNat ≠ 0) (h₁₄ : 14 ≤ y.toNat.log2)
    (h₁₆ : y.toNat.log2 < 16) : (y >>> 15).toNat = y.toNat.log2 - 14 := by
  have hshift : (y >>> 15).toNat = y.toNat / 2 ^ 15 := by
    rw [UInt32.toNat_shiftRight, Nat.shiftRight_eq_div_pow]
    rfl
  have hlt : y.toNat < 2 ^ 16 := (Nat.log2_lt hy).mp h₁₆
  have hbit := Nat.le_log2 (k := 15) hy
  rw [hshift]
  omega

/-- Three steps leave the highest bit in place 14 or 15, and each of them adds to the count what it
    has shifted by. -/
theorem shiftMask_eq {x : UInt64} (h0 : x ≠ 0) (hx : x.toNat ≤ 0xFFFF) : shiftMask x = bsrl x := by
  have hy : x.toUInt32.toNat = x.toNat := by
    rw [UInt64.toNat_toUInt32]
    exact Nat.mod_eq_of_lt (by omega)
  have hne : x.toNat ≠ 0 := fun h => h0 (UInt64.toNat_inj.mp h)
  have hlog : x.toNat.log2 < 16 := (Nat.log2_lt hne).mpr (by omega)
  have hbsrl := toNat_bsrl hlog
  rw [← hy] at hne hlog hbsrl
  obtain ⟨k₁, hk₁, hne₁, hlog₁, hzeros₁, htop₁⟩ := shift_step hne hlog (t := 0x100) (b := 8)
    (by decide) (by decide) (by decide) (by decide) (Nat.zero_le _)
  obtain ⟨k₂, hk₂, hne₂, hlog₂, hzeros₂, htop₂⟩ := shift_step hne₁ htop₁ (t := 0x1000) (b := 4)
    (by decide) (by decide) (by decide) (by decide) hzeros₁
  obtain ⟨k₃, hk₃, hne₃, hlog₃, hzeros₃, htop₃⟩ := shift_step hne₂ htop₂ (t := 0x4000) (b := 2)
    (by decide) (by decide) (by decide) (by decide) hzeros₂
  have hplace : 14 ≤ (x.toUInt32 <<< k₁ <<< k₂ <<< k₃).toNat.log2 := hzeros₃
  have hlast := shiftRight_fifteen hne₃ hplace htop₃
  have h₁₄ : (14 : UInt32).toNat = 14 := rfl
  simp only [shiftMask, hk₁, hk₂, hk₃]
  -- `14 - n` and the last bit are the place of the highest bit less what it was shifted
  rw [← UInt32.toNat_inj, hbsrl, UInt32.toNat_add, UInt32.toNat_sub, UInt32.toNat_add,
    UInt32.toNat_add, hlast, h₁₄]
  omega

/-! ### The bin of a size -/

/-- The bin of a chunk of `size` bytes: two bins for the sizes from `2 ^ (k + 8)` on, one for each
    half of what lies below `2 ^ (k + 9)`. -/
def bin (size : Nat) : Nat :=
  if size < 2 ^ 8 then 0
  else if 2 ^ 24 ≤ size then 31
  else 2 * (size / 2 ^ 8).log2 + size / 2 ^ ((size / 2 ^ 8).log2 + 7) % 2

/-- The bit behind the highest one, with that in front of it. -/
theorem half_bounds {size : Nat} (h : 2 ^ 8 ≤ size) :
    2 ≤ size / 2 ^ ((size / 2 ^ 8).log2 + 7) ∧ size / 2 ^ ((size / 2 ^ 8).log2 + 7) < 4 := by
  have hne : size / 2 ^ 8 ≠ 0 := by omega
  have hlow := Nat.log2_self_le hne
  have hhigh : size / 2 ^ 8 < 2 ^ (size / 2 ^ 8).log2 * 2 := Nat.lt_log2_self
  rw [Nat.le_div_iff_mul_le (Nat.two_pow_pos _), Nat.div_lt_iff_lt_mul (Nat.two_pow_pos _)]
  rw [Nat.pow_add]
  omega

/-- The logarithm has at most four bits for a size below 16 MiB. -/
theorem log2_lt_of_lt {size : Nat} (h : size < 2 ^ 24) : (size / 2 ^ 8).log2 < 16 := by
  by_cases hne : size / 2 ^ 8 = 0
  · rw [hne]
    decide
  · rw [Nat.log2_lt hne]
    omega

/-- There are 32 bins. -/
theorem bin_lt (size : Nat) : bin size < 32 := by
  unfold bin
  split
  · decide
  · split
    · decide
    next h =>
      have := log2_lt_of_lt (Nat.not_le.mp h)
      omega

/-- A larger chunk has a larger logarithm, or the same one and the same half or a later one. -/
theorem bin_mono {size₁ size₂ : Nat} (h : size₁ ≤ size₂) : bin size₁ ≤ bin size₂ := by
  by_cases hsmall : size₁ < 2 ^ 8
  · rw [bin, if_pos hsmall]
    exact Nat.zero_le _
  by_cases hlarge : 2 ^ 24 ≤ size₂
  · have hlt := bin_lt size₁
    have hlast : bin size₂ = 31 := by
      rw [bin, if_neg (by omega), if_pos hlarge]
    omega
  have hhalf₁ := half_bounds (Nat.not_lt.mp hsmall)
  have hhalf₂ := half_bounds (by omega : 2 ^ 8 ≤ size₂)
  have hlog : (size₁ / 2 ^ 8).log2 ≤ (size₂ / 2 ^ 8).log2 := by
    rw [Nat.log2_eq_log_two, Nat.log2_eq_log_two]
    exact Nat.log_mono_right (Nat.div_le_div_right h)
  rw [bin, bin, if_neg hsmall, if_neg (by omega), if_neg (by omega), if_neg hlarge]
  rcases Nat.lt_or_eq_of_le hlog with hlog | hlog
  · -- the last bit of the smaller index does not make up for the logarithm
    omega
  · -- with the same logarithm both quotients are `2` or `3`
    rw [hlog] at hhalf₁ ⊢
    have hdiv : size₁ / 2 ^ ((size₂ / 2 ^ 8).log2 + 7) ≤ size₂ / 2 ^ ((size₂ / 2 ^ 8).log2 + 7) :=
      Nat.div_le_div_right h
    omega

/-- The size in units of the smallest bin. -/
theorem toNat_shiftRight_treebinShift (size : UInt64) :
    (size >>> treebinShift.toUInt64).toNat = size.toNat / 2 ^ 8 := by
  rw [UInt64.toNat_shiftRight, Nat.shiftRight_eq_div_pow]
  rfl

/-- The index of a size between the bounds: twice the place of its highest bit, and the bit below
    it. -/
theorem toNat_index {k : UInt32} (hk : k.toNat < 16) (size : UInt64) :
    ((k <<< 1).toUInt64 + ((size >>> (k + (treebinShift - 1)).toUInt64) &&& 1)).toUInt32.toNat
      = 2 * k.toNat + size.toNat / 2 ^ (k.toNat + 7) % 2 := by
  have hdouble : (k <<< 1).toNat = 2 * k.toNat := by
    rw [UInt32.toNat_shiftLeft, Nat.shiftLeft_eq]
    show k.toNat * 2 % 2 ^ 32 = _
    omega
  have hplace : (k + (treebinShift - 1)).toNat = k.toNat + 7 := by
    rw [UInt32.toNat_add]
    exact Nat.mod_eq_of_lt (by show k.toNat + 7 < 2 ^ 32; omega)
  have hbit : ((size >>> (k + (treebinShift - 1)).toUInt64) &&& 1).toNat
      = size.toNat / 2 ^ (k.toNat + 7) % 2 := by
    rw [UInt64.toNat_and, UInt64.toNat_shiftRight, UInt32.toNat_toUInt64, hplace,
      Nat.mod_eq_of_lt (by omega : k.toNat + 7 < 64), Nat.shiftRight_eq_div_pow]
    exact Nat.and_one_is_mod _
  rw [UInt64.toNat_toUInt32, UInt64.toNat_add, UInt32.toNat_toUInt64, hdouble, hbit]
  omega

/-- **The index is the bin of the size**, also for the sizes that are too small or too large. -/
theorem toNat_computeTreeIndex (size : UInt64) :
    (computeTreeIndex bsrl size).toNat = bin size.toNat := by
  have hx := toNat_shiftRight_treebinShift size
  have hzero : size >>> treebinShift.toUInt64 = 0 ↔ size.toNat < 2 ^ 8 := by
    rw [← UInt64.toNat_inj, hx]
    show _ = 0 ↔ _
    omega
  have hlarge : size >>> treebinShift.toUInt64 > 0xFFFF ↔ 2 ^ 24 ≤ size.toNat := by
    rw [gt_iff_lt, UInt64.lt_iff_toNat_lt, hx]
    show 65535 < _ ↔ _
    omega
  simp only [computeTreeIndex, bin, hzero, hlarge]
  split
  · rfl
  split
  · rfl
  next h =>
    have hlog : (size >>> treebinShift.toUInt64).toNat.log2 < 16 := by
      rw [hx]
      exact log2_lt_of_lt (Nat.not_le.mp h)
    have hk := toNat_bsrl hlog
    rw [toNat_index (by omega), hk, hx]

/-- **Both ways to compute the logarithm** give the same index. -/
theorem computeTreeIndex_shiftMask (size : UInt64) :
    computeTreeIndex shiftMask size = computeTreeIndex bsrl size := by
  simp only [computeTreeIndex]
  split
  · rfl
  next h0 =>
    split
    · rfl
    next hlarge =>
      have hx : (size >>> treebinShift.toUInt64).toNat ≤ 0xFFFF :=
        Nat.not_lt.mp fun h => hlarge (UInt64.lt_iff_toNat_lt.mpr h)
      rw [shiftMask_eq h0 hx]

/-- **`computeTreeIndex`.** Both builds compute the same bin, it is one of the 32, and a larger
    chunk is never in an earlier one. -/
theorem tree_index (size : UInt64) :
    computeTreeIndex shiftMask size = computeTreeIndex bsrl size ∧
      computeTreeIndex bsrl size < ntreebins ∧
      ∀ size', size ≤ size' → computeTreeIndex bsrl size ≤ computeTreeIndex bsrl size' := by
  refine ⟨computeTreeIndex_shiftMask size, ?_, ?_⟩
  · rw [UInt32.lt_iff_toNat_lt, toNat_computeTreeIndex]
    exact bin_lt _
  · intro size' h
    rw [UInt32.le_iff_toNat_le, toNat_computeTreeIndex, toNat_computeTreeIndex]
    exact bin_mono (UInt64.le_iff_toNat_le.mp h)

/-- The sizes of `main` are in order. -/
theorem tree_index_main :
    computeTreeIndex bsrl 0x1800 ≤ computeTreeIndex bsrl 0x2000 :=
  (tree_index 0x1800).2.2 0x2000 (by decide)

end CPlayground.NAHeap
