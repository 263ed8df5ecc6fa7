import CPlayground.Lib.ZeroByte
import Mathlib.Logic.Function.Basic

namespace CPlayground.Monitor.Strlcpy

open Bytes Function

/-!
# Copying a string word by word

`details::strlcpy` copies bytes up to an aligned address, then words without a zero byte, then bytes
again.  It does so if the two addresses have the same alignment; else it copies bytes only.

* `hasZero_ofWord64` — the macro `HASZERO` tells whether a byte of the word is zero.
* `Copied` — what every loop keeps: some bytes are copied, and at most the next one is overwritten.
* `copied_copyLoop`, `copied_copyWords` — the loops of bytes and of words keep it.
* `strlcpy_eq` — so the function does what the loop of bytes does alone.
-/

/-! ### The function -/

/-- The memory. -/
abbrev Ram := Nat → UInt8

/-- The bytes of a word. -/
def wordAt (mem : Ram) (a : Nat) : List UInt8 := (List.range 8).map fun i => mem (a + i)

/-- `*ws`. -/
def readWord (mem : Ram) (a : Nat) : UInt64 := ofWord64 (wordAt mem a)

/-- `*wd = x`. -/
def writeWord (mem : Ram) (a : Nat) (x : UInt64) : Ram := fun b =>
  if a ≤ b then ((word64 x)[b - a]?).getD (mem b) else mem b

/-- `HASZERO(x)`. -/
def hasZero (x : UInt64) : UInt64 := (x - 0x0101010101010101) &&& ~~~x &&& 0x8080808080808080

/-- `PTRALIGNOFFSET(x)`. -/
def alignOffset (a : Nat) : Nat := a &&& (8 - 1)

/-- The variables `d`, `s` and `n`, and the memory. -/
structure Copy where
  mem : Ram
  d : Nat
  s : Nat
  n : Nat

/-- `for (; go(s) && n && (*d = *s); --n, ++s, ++d) {}`. -/
def copyLoop (go : Nat → Bool) (mem : Ram) (d s : Nat) : Nat → Copy
  | 0     => ⟨mem, d, s, 0⟩
  | n + 1 =>
    if go s then
      -- the zero is written too
      if mem s = 0 then ⟨update mem d (mem s), d, s, n + 1⟩
      else copyLoop go (update mem d (mem s)) (d + 1) (s + 1) n
    else ⟨mem, d, s, n + 1⟩

/-- The loop of words. -/
def copyWords (c : Copy) : Copy :=
  if 8 ≤ c.n ∧ hasZero (readWord c.mem c.s) = 0 then
    copyWords { mem := writeWord c.mem c.d (readWord c.mem c.s), n := c.n - 8
                s := c.s + 8, d := c.d + 8 }
  else c
termination_by c.n

/-- What is in front of the last loop. -/
def copyAligned (mem : Ram) (d s n : Nat) : Copy :=
  if alignOffset s = alignOffset d then
    let c := copyLoop (fun s => alignOffset s ≠ 0) mem d s n
    if c.n ≠ 0 ∧ c.mem c.s ≠ 0 then copyWords c else c
  else ⟨mem, d, s, n⟩

/-- The last loop, and what is behind it: the memory and the number of bytes in front of the
    zero. -/
def copyRest (d₀ : Nat) (c : Copy) : Ram × Nat :=
  let c := copyLoop (fun _ => true) c.mem c.d c.s c.n
  (update c.mem c.d 0, c.d - d₀)

/-- `details::strlcpy(d, s, n)`. -/
def strlcpy (mem : Ram) (d s n : Nat) : Ram × Nat := copyRest d (copyAligned mem d s n)

/-- The function with the last loop only. -/
def strlcpyBytes (mem : Ram) (d s n : Nat) : Ram × Nat := copyRest d ⟨mem, d, s, n⟩

/-! ### Words -/

variable {mem mem₀ : Ram} {d d₀ s s₀ n n₀ k len : Nat} {c : Copy}

/-- The macro on a word is the test on its number. -/
theorem toNat_hasZero (x : UInt64) : (hasZero x).toNat = ZeroByte.hasZero 8 x.toNat := by
  have hones : ZeroByte.repeated 8 1 = (0x0101010101010101 : UInt64).toNat := by decide
  have hhighs : ZeroByte.repeated 8 0x80 = (0x8080808080808080 : UInt64).toNat := by decide
  have hsize : UInt64.size = 256 ^ 8 := by decide
  have hsub : (x - 0x0101010101010101).toNat
      = (x.toNat + 256 ^ 8 - (0x0101010101010101 : UInt64).toNat) % 256 ^ 8 := by
    have hone := (0x0101010101010101 : UInt64).toNat_lt
    rw [UInt64.toNat_sub]
    omega
  rw [hasZero, ZeroByte.hasZero, UInt64.toNat_and, UInt64.toNat_and, UInt64.toNat_not, hsub, hsize,
    hones, hhighs]

/-- **`HASZERO` finds a zero byte**, and nothing else. -/
theorem hasZero_ofWord64 {bs : List UInt8} (h : bs.length = 8) :
    hasZero (ofWord64 bs) = 0 ↔ 0 ∉ bs := by
  have hexact := ZeroByte.hasZero_eq_zero_iff bs
  rw [h] at hexact
  rw [← hexact, ← UInt64.toNat_inj, toNat_hasZero, toNat_ofWord64 h]
  rfl

/-- A word has eight bytes. -/
theorem length_wordAt (mem : Ram) (a : Nat) : (wordAt mem a).length = 8 := by simp [wordAt]

/-- The bytes of the word that is read at an address. -/
theorem word64_readWord (mem : Ram) (a : Nat) : word64 (readWord mem a) = wordAt mem a :=
  word64_ofWord64 (length_wordAt mem a)

/-- Copying a word copies its bytes. -/
theorem writeWord_readWord (mem : Ram) (d s i : Nat) :
    writeWord mem d (readWord mem s) i
      = if d ≤ i ∧ i < d + 8 then mem (s + (i - d)) else mem i := by
  rw [writeWord, word64_readWord]
  by_cases hd : d ≤ i
  · by_cases hi : i < d + 8
    · rw [if_pos hd, if_pos ⟨hd, hi⟩, wordAt, List.getElem?_map, List.getElem?_range (by omega)]
      rfl
    · rw [if_pos hd, if_neg (by omega), List.getElem?_eq_none (by rw [length_wordAt]; omega)]
      rfl
  · rw [if_neg hd, if_neg (by omega)]

/-! ### The invariant -/

/-- A string at an address: `len` bytes that are not zero, and a zero behind them. -/
structure CString (mem : Ram) (s len : Nat) : Prop where
  zero : mem (s + len) = 0
  ne_zero : ∀ i < len, mem (s + i) ≠ 0

/-- `k` bytes are copied: the variables have moved by `k`, and at most the byte behind the copy is
    overwritten. -/
structure Copied (mem₀ : Ram) (d₀ s₀ n₀ k : Nat) (c : Copy) : Prop where
  d_eq : c.d = d₀ + k
  s_eq : c.s = s₀ + k
  n_eq : c.n + k = n₀
  copy : ∀ i < k, c.mem (d₀ + i) = mem₀ (s₀ + i)
  frame : ∀ a, a < d₀ ∨ d₀ + k < a → c.mem a = mem₀ a

/-- Nothing was copied yet. -/
theorem Copied.start (mem : Ram) (d s n : Nat) : Copied mem d s n 0 ⟨mem, d, s, n⟩ where
  d_eq := rfl
  s_eq := rfl
  n_eq := rfl
  copy := by simp
  frame := fun _ _ => rfl

/-- The byte behind the copy can be overwritten. -/
theorem Copied.overwrite (h : Copied mem₀ d₀ s₀ n₀ k c) (v : UInt8) :
    Copied mem₀ d₀ s₀ n₀ k { c with mem := update c.mem c.d v } where
  d_eq := h.d_eq
  s_eq := h.s_eq
  n_eq := h.n_eq
  copy i hi := by
    have hne : d₀ + i ≠ c.d := by have := h.d_eq; omega
    exact (update_of_ne hne _ _).trans (h.copy i hi)
  frame a ha := by
    have hne : a ≠ c.d := by have := h.d_eq; omega
    exact (update_of_ne hne _ _).trans (h.frame a ha)

section

/-! The string is copied to a place where it does not overlap itself. -/

variable (hstr : CString mem₀ s₀ len) (hsep : d₀ + min len n₀ < s₀ ∨ s₀ + len < d₀)

include hsep in
/-- The string is not overwritten. -/
theorem Copied.source (h : Copied mem₀ d₀ s₀ n₀ k c) (hk : k ≤ min len n₀) {i : Nat}
    (hi : i ≤ len) : c.mem (s₀ + i) = mem₀ (s₀ + i) :=
  h.frame _ (by omega)

include hstr hsep in
/-- There is another byte to copy as long as `n` and `*s` are not zero. -/
theorem Copied.lt_iff (h : Copied mem₀ d₀ s₀ n₀ k c) (hk : k ≤ min len n₀) :
    k < min len n₀ ↔ c.n ≠ 0 ∧ c.mem c.s ≠ 0 := by
  have hn := h.n_eq
  rw [h.s_eq, h.source hsep hk (by omega)]
  constructor
  · intro hlt
    exact ⟨by omega, hstr.ne_zero k (by omega)⟩
  · rintro ⟨hn0, hbyte⟩
    have hlen : k ≠ len := by
      rintro rfl
      exact hbyte hstr.zero
    omega

include hsep in
/-- A byte of the string is copied; the source is not overwritten by it, as the two blocks do not
    overlap. -/
theorem Copied.byte (h : Copied mem₀ d₀ s₀ n₀ k c) (hk : k < min len n₀) {n : Nat}
    (hn : c.n = n + 1) :
    Copied mem₀ d₀ s₀ n₀ (k + 1) ⟨update c.mem c.d (c.mem c.s), c.d + 1, c.s + 1, n⟩ where
  d_eq := by
    show c.d + 1 = _
    rw [h.d_eq, Nat.add_assoc]
  s_eq := by
    show c.s + 1 = _
    rw [h.s_eq, Nat.add_assoc]
  n_eq := by
    have := h.n_eq
    show n + (k + 1) = _
    omega
  copy i hi := by
    have hd := h.d_eq
    show update c.mem c.d (c.mem c.s) (d₀ + i) = _
    -- the byte of this step, and those before
    by_cases hik : i = k
    · rw [hik, ← hd, update_self, h.s_eq, h.source hsep (by omega) (by omega)]
    · rw [update_of_ne (by omega), h.copy i (by omega)]
  frame a ha := by
    have hd := h.d_eq
    show update c.mem c.d (c.mem c.s) a = _
    rw [update_of_ne (by omega), h.frame a (by omega)]

include hsep in
/-- A word of the string is copied, which has no zero byte: these are eight bytes at once. -/
theorem Copied.word (h : Copied mem₀ d₀ s₀ n₀ k c) (hk : k + 8 ≤ min len n₀) :
    Copied mem₀ d₀ s₀ n₀ (k + 8) { mem := writeWord c.mem c.d (readWord c.mem c.s), n := c.n - 8
                                   s := c.s + 8, d := c.d + 8 } where
  d_eq := by
    show c.d + 8 = _
    rw [h.d_eq, Nat.add_assoc]
  s_eq := by
    show c.s + 8 = _
    rw [h.s_eq, Nat.add_assoc]
  n_eq := by
    have := h.n_eq
    show c.n - 8 + (k + 8) = _
    omega
  copy i hi := by
    have hd := h.d_eq
    show writeWord c.mem c.d (readWord c.mem c.s) (d₀ + i) = _
    rw [writeWord_readWord]
    by_cases hik : i < k
    · rw [if_neg (by omega), h.copy i hik]
    · -- a byte of the new word
      have hat : c.s + (d₀ + i - c.d) = s₀ + i := by
        have := h.s_eq
        omega
      rw [if_pos (by omega), hat, h.source hsep (by omega) (by omega)]
  frame a ha := by
    have hd := h.d_eq
    show writeWord c.mem c.d (readWord c.mem c.s) a = _
    rw [writeWord_readWord, if_neg (by omega), h.frame a (by omega)]

/-! ### The loops -/

include hstr hsep in
/-- **The loops of bytes** copy bytes of the string, all of them if nothing else ends the loop. -/
theorem copied_copyLoop (go : Nat → Bool) (h : Copied mem₀ d₀ s₀ n₀ k ⟨mem, d, s, n⟩)
    (hk : k ≤ min len n₀) :
    ∃ k' ≤ min len n₀, Copied mem₀ d₀ s₀ n₀ k' (copyLoop go mem d s n) ∧
      ((∀ a, go a = true) → k' = min len n₀) := by
  have hlt := h.lt_iff hstr hsep hk
  induction n generalizing mem d s k with
  | zero => exact ⟨k, hk, h, fun _ => by simp at hlt; omega⟩
  | succ n ih =>
    rw [copyLoop]
    by_cases hgo : go s = true
    · rw [if_pos hgo]
      by_cases hzero : mem s = 0
      · rw [if_pos hzero]
        exact ⟨k, hk, h.overwrite _, fun _ => by simp [hzero] at hlt; omega⟩
      · -- neither the limit nor the end of the string
        rw [if_neg hzero]
        have hmore : k < min len n₀ := hlt.mpr ⟨Nat.succ_ne_zero n, hzero⟩
        have hnext := h.byte hsep hmore rfl
        exact ih hnext hmore (hnext.lt_iff hstr hsep hmore)
    · rw [if_neg hgo]
      exact ⟨k, hk, h, fun hall => absurd (hall s) hgo⟩

include hstr hsep in
/-- **The loop of words** does not copy the word with the end of the string, so the last loop finds
    it; before that it copies eight bytes in each round. -/
theorem copied_copyWords (h : Copied mem₀ d₀ s₀ n₀ k c) (hk : k ≤ min len n₀) :
    ∃ k' ≤ min len n₀, Copied mem₀ d₀ s₀ n₀ k' (copyWords c) := by
  fun_induction copyWords c generalizing k with
  | case1 c hcond ih =>
    obtain ⟨hn, hword⟩ := hcond
    rw [readWord, hasZero_ofWord64 (length_wordAt _ _)] at hword
    have hlen : k + 8 ≤ len := by
      by_contra hlt
      -- the zero is among the bytes of the word
      have hmem : c.mem (s₀ + len) ∈ wordAt c.mem c.s := by
        refine List.mem_map.mpr ⟨len - k, List.mem_range.mpr (by omega), ?_⟩
        have := h.s_eq
        congr 1
        omega
      rw [h.source hsep hk (Nat.le_refl _), hstr.zero] at hmem
      exact hword hmem
    have hn' := h.n_eq
    have hmore : k + 8 ≤ min len n₀ := by omega
    exact ih (h.word hsep hmore) hmore
  | case2 c hcond => exact ⟨k, hk, h⟩

include hstr hsep in
/-- **What is in front of the last loop** copies a part of the string, byte by byte up to an aligned
    address and then word by word. -/
theorem copied_copyAligned : ∃ k ≤ min len n₀,
    Copied mem₀ d₀ s₀ n₀ k (copyAligned mem₀ d₀ s₀ n₀) := by
  have hstart := Copied.start mem₀ d₀ s₀ n₀
  rw [copyAligned]
  split
  · obtain ⟨k, hk, hbytes, -⟩ :=
      copied_copyLoop hstr hsep (fun s => alignOffset s ≠ 0) hstart (Nat.zero_le _)
    simp only
    split
    · exact copied_copyWords hstr hsep hbytes hk
    · exact ⟨k, hk, hbytes⟩
  · exact ⟨0, Nat.zero_le _, hstart⟩

/-- The copy: the bytes of the string, and one zero behind them. -/
def copied (mem : Ram) (d s k : Nat) : Ram := fun a =>
  if d ≤ a ∧ a < d + k then mem (s + (a - d)) else if a = d + k then 0 else mem a

include hstr hsep in
/-- **The last loop** copies the rest of the string, and its terminator if there is room for it. -/
theorem copyRest_eq (h : Copied mem₀ d₀ s₀ n₀ k c) (hk : k ≤ min len n₀) :
    copyRest d₀ c = (copied mem₀ d₀ s₀ (min len n₀), min len n₀) := by
  obtain ⟨k', hk', hend, hall⟩ := copied_copyLoop hstr hsep (fun _ => true) h hk
  rw [hall fun _ => rfl] at hend
  have hd := hend.d_eq
  rw [copyRest]
  refine Prod.ext (funext fun a => ?_) (by simp only [hd]; omega)
  simp only [copied, hd]
  -- the zero, the string, and everything else
  by_cases ha : a = d₀ + min len n₀
  · rw [ha, update_self, if_neg (by omega), if_pos rfl]
  · rw [update_of_ne ha]
    by_cases hin : d₀ ≤ a ∧ a < d₀ + min len n₀
    · have hat : a = d₀ + (a - d₀) := by omega
      rw [if_pos hin, ← hend.copy _ (by omega), ← hat]
    · rw [if_neg hin, if_neg ha, hend.frame a (by omega)]

end

/-- **Copying word by word is copying byte by byte**: the function copies the string up to the limit
    with one zero behind it, changes nothing else, and returns the number of bytes.  What is behind
    the string in its last word can have any values. -/
theorem strlcpy_eq (hstr : CString mem s len) (hsep : d + min len n < s ∨ s + len < d) :
    strlcpy mem d s n = (copied mem d s (min len n), min len n) ∧
    strlcpy mem d s n = strlcpyBytes mem d s n := by
  obtain ⟨k, hk, hcopied⟩ := copied_copyAligned hstr hsep
  have hwords : strlcpy mem d s n = (copied mem d s (min len n), min len n) :=
    copyRest_eq hstr hsep hcopied hk
  have hbytes : strlcpyBytes mem d s n = (copied mem d s (min len n), min len n) :=
    copyRest_eq hstr hsep (Copied.start mem d s n) (Nat.zero_le _)
  exact ⟨hwords, hwords.trans hbytes.symm⟩

/-- Twenty letters from address 3 on. -/
def twentyLetters : Ram := fun a => if 3 ≤ a ∧ a < 23 then 0x61 else if a = 23 then 0 else 0xff

/-- Fifteen letters to an address with the same alignment: five bytes, a word, and two bytes. -/
theorem strlcpy_eq_fifteen : CString twentyLetters 3 20 ∧
    strlcpy twentyLetters 35 3 15 = (copied twentyLetters 35 3 15, 15) ∧
    strlcpy twentyLetters 35 3 15 = strlcpyBytes twentyLetters 35 3 15 := by
  have hstr : CString twentyLetters 3 20 := ⟨by decide, by decide⟩
  exact ⟨hstr, strlcpy_eq hstr (.inr (by decide))⟩

end CPlayground.Monitor.Strlcpy
