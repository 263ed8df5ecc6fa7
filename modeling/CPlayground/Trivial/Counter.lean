import Mathlib.Data.Fin.VecNotation
import Mathlib.Data.UInt
import Mathlib.Tactic.SplitIfs

namespace CPlayground.Counter

/-!
# `counter.cpp`

A number of 256 bits in four words, `a[0]` the highest one.  `AddOne` and `SubOne` change a word and
go on to the next higher one if it has become zero.

* `carry_spec` — that one is changed twice: by the call that goes on to it, and by the call for it.
* `counts` — so `++` adds one exactly if no word carries, and `--`, which goes on at zero instead of
  below it, subtracts one exactly from a last word that is at least two.
* `addsLong_iff` — `+=`, which looks for an overflow of the last word as a `long`, adds the number
  exactly if there is none and the sign of the last word stays.
-/

/-- The words `a`, modulo `2 ^ 64`. -/
abbrev Words := Fin 4 → UInt64

/-- The number in the counter. -/
def value (a : Words) : Nat :=
  (a 0).toNat * 2 ^ 192 + (a 1).toNat * 2 ^ 128 + (a 2).toNat * 2 ^ 64 + (a 3).toNat

/-- `++a[i]`, for `d = 1`, and `--a[i]`, for `d = -1`. -/
def change (d : UInt64) (a : Words) (i : Fin 4) : Words := Function.update a i (a i + d)

/-- The common text of `AddOne(i)` and `SubOne(i)`.  There is no `a[-1]`. -/
def carry (d : UInt64) : (i : Nat) → i < 4 → Words → Option Words
  | 0,     hi, a =>
      let a := change d a ⟨0, hi⟩
      if a ⟨0, hi⟩ = 0 then none else some a
  | i + 1, hi, a =>
      let a := change d a ⟨i + 1, hi⟩
      if a ⟨i + 1, hi⟩ = 0 then
        -- the call below begins with the same change
        let a := change d a ⟨i, Nat.lt_of_succ_lt hi⟩
        if i ≠ 0 then carry d i (Nat.lt_of_succ_lt hi) a else some a
      else some a

/-- `AddOne(i)`. -/
def addOne (i : Nat) (hi : i < 4) (a : Words) : Option Words := carry 1 i hi a

/-- `SubOne(i)`. -/
def subOne (i : Nat) (hi : i < 4) (a : Words) : Option Words := carry (-1) i hi a

/-- `operator++`. -/
def increment (a : Words) : Option Words := addOne 3 (by decide) a

/-- `operator--`. -/
def decrement (a : Words) : Option Words := subOne 3 (by decide) a

variable {d : UInt64} {a b : Words} {i j : Fin 4}

/-- The word that is changed. -/
theorem change_self (d : UInt64) (a : Words) (i : Fin 4) : change d a i i = a i + d :=
  Function.update_self i _ a

/-- The other words stay. -/
theorem change_of_ne (h : j ≠ i) : change d a i j = a j := Function.update_of_ne h _ a

/-- A word that does not become zero is the only one that is changed. -/
theorem carry_of_ne {i : Nat} (hi : i < 4) (h : a ⟨i, hi⟩ + d ≠ 0) :
    carry d i hi a = some (change d a ⟨i, hi⟩) := by
  cases i with
  | zero => simp only [carry, change_self, if_neg h]
  | succ i => simp only [carry, change_self, if_neg h]

/-- A word that becomes zero. -/
theorem carry_succ_of_eq {i : Nat} (hi : i + 1 < 4) (h : a ⟨i + 1, hi⟩ + d = 0) :
    carry d (i + 1) hi a =
      if i ≠ 0 then
        carry d i (Nat.lt_of_succ_lt hi) (change d (change d a ⟨i + 1, hi⟩)
          ⟨i, Nat.lt_of_succ_lt hi⟩)
      else some (change d (change d a ⟨i + 1, hi⟩) ⟨i, Nat.lt_of_succ_lt hi⟩) := by
  rw [carry, change_self, if_pos h]

/-- Above the first word there is a result; the word is changed once and the lower ones are not. -/
theorem carry_spec (i : Nat) (hi : i + 1 < 4) (a : Words) :
    ∃ b, carry d (i + 1) hi a = some b ∧ b ⟨i + 1, hi⟩ = a ⟨i + 1, hi⟩ + d ∧
      ∀ j : Fin 4, i + 1 < j.val → b j = a j := by
  induction i generalizing a with
  | zero =>
    by_cases h : a ⟨1, hi⟩ + d = 0
    · refine ⟨_, carry_succ_of_eq hi h, ?_, ?_⟩
      · rw [change_of_ne (by simp), change_self]
      · intro j hj
        rw [change_of_ne (Fin.ne_of_val_ne (by simp; omega)),
          change_of_ne (Fin.ne_of_val_ne (by simp; omega))]
    · refine ⟨_, carry_of_ne hi h, change_self _ _ _, ?_⟩
      intro j hj
      exact change_of_ne (Fin.ne_of_val_ne (by simp; omega))
  | succ i ih =>
    by_cases h : a ⟨i + 2, hi⟩ + d = 0
    · -- the call for the next higher word leaves this one as it is
      obtain ⟨b, hb, -, hlow⟩ := ih (Nat.lt_of_succ_lt hi)
        (change d (change d a ⟨i + 2, hi⟩) ⟨i + 1, Nat.lt_of_succ_lt hi⟩)
      refine ⟨b, ?_, ?_, ?_⟩
      · rw [carry_succ_of_eq hi h, if_pos (Nat.succ_ne_zero i), hb]
      · rw [hlow _ (by simp), change_of_ne (by simp), change_self]
      · intro j hj
        rw [hlow j (by omega), change_of_ne (Fin.ne_of_val_ne (by simp; omega)),
          change_of_ne (Fin.ne_of_val_ne (by simp; omega))]
    · refine ⟨_, carry_of_ne hi h, change_self _ _ _, ?_⟩
      intro j hj
      exact change_of_ne (Fin.ne_of_val_ne (by simp; omega))

/-- **A last word that becomes zero** changes the one before it twice: the call for the last word
    goes on to it, and then comes the call for the word itself. -/
theorem carry_of_eq (h : a 3 + d = 0) :
    ∃ b, carry d 3 (by decide) a = some b ∧ b 3 = 0 ∧ b 2 = a 2 + d + d := by
  obtain ⟨b, hb, hnext, hlow⟩ := carry_spec (d := d) 1 (by decide) (change d (change d a 3) 2)
  refine ⟨b, (carry_succ_of_eq (i := 2) (by decide) h).trans hb, ?_, ?_⟩
  · rw [hlow 3 (by decide), change_of_ne (by decide), change_self, h]
  · have htwo : b 2 = change d (change d a 3) 2 2 + d := hnext
    rw [htwo, change_self, change_of_ne (by decide)]

/-- A change of the last word that does not carry. -/
theorem carry_last (h : a 3 + d ≠ 0) : carry d 3 (by decide) a = some (change d a 3) :=
  carry_of_ne (i := 3) (by decide) h

/-- The number after a change of the last word alone. -/
theorem value_change (d : UInt64) (a : Words) :
    value (change d a 3) + (a 3).toNat = value a + (a 3 + d).toNat := by
  rw [value, value, change_self, change_of_ne (by decide), change_of_ne (by decide),
    change_of_ne (by decide)]
  omega

/-- A number of four words is below `2 ^ 256`. -/
theorem value_lt (a : Words) : value a < 2 ^ 256 := by
  have h₀ := (a 0).toNat_lt
  have h₁ := (a 1).toNat_lt
  have h₂ := (a 2).toNat_lt
  have h₃ := (a 3).toNat_lt
  rw [value]
  omega

/-! ### Counting -/

/-- `++` adds one. -/
def Adds (a : Words) : Prop := ∃ b, increment a = some b ∧ value b = (value a + 1) % 2 ^ 256

/-- `--` subtracts one. -/
def Subtracts (a : Words) : Prop :=
  ∃ b, decrement a = some b ∧ value b = (value a + (2 ^ 256 - 1)) % 2 ^ 256

/-- The two lower words of a number. -/
theorem value_mod (a : Words) : value a % 2 ^ 128 = (a 2).toNat * 2 ^ 64 + (a 3).toNat := by
  have h₂ := (a 2).toNat_lt
  have h₃ := (a 3).toNat_lt
  rw [value]
  omega

/-- The two last words after the last one has become zero. -/
theorem value_mod_of_eq (h : a 3 + d = 0) (hb : carry d 3 (by decide) a = some b) :
    value b % 2 ^ 128 = ((a 2).toNat + 2 * d.toNat) % 2 ^ 64 * 2 ^ 64 := by
  obtain ⟨c, hc, hlast, hnext⟩ := carry_of_eq h
  obtain rfl := Option.some.inj (hb.symm.trans hc)
  have hzero : (0 : UInt64).toNat = 0 := rfl
  rw [value_mod, hlast, hnext, UInt64.toNat_add, UInt64.toNat_add]
  omega

/-- The number after the last word alone has changed. -/
theorem value_of_ne (h : a 3 + d ≠ 0) (hb : carry d 3 (by decide) a = some b) :
    value b + (a 3).toNat = value a + ((a 3).toNat + d.toNat) % 2 ^ 64 := by
  obtain rfl := Option.some.inj ((carry_last h).symm.trans hb)
  rw [← UInt64.toNat_add]
  exact value_change d a

/-- **`++` adds one** exactly if the last word does not carry: a carry changes the word before it
    twice. -/
theorem adds_iff (a : Words) : Adds a ↔ a 3 ≠ -1 := by
  have hlt := value_lt a
  have hmod := value_mod a
  have hone : (1 : UInt64).toNat = 1 := rfl
  have hmax : a 3 = -1 ↔ (a 3).toNat = 2 ^ 64 - 1 := UInt64.toNat_inj.symm
  have hcarry : a 3 + 1 = 0 ↔ a 3 = -1 := by grind
  constructor
  · rintro ⟨b, hb, hvalue⟩ h
    have hvalue' := value_mod_of_eq (hcarry.mpr h) hb
    rw [hmax] at h
    omega
  · intro h
    have hne : a 3 + 1 ≠ 0 := fun hzero => h (hcarry.mp hzero)
    refine ⟨change 1 a 3, by rw [increment, addOne, carry_last hne], ?_⟩
    have hvalue := value_of_ne hne (carry_last hne)
    have hlt' := value_lt (change 1 a 3)
    have hword := (a 3).toNat_lt
    rw [Ne, hmax] at h
    omega

/-- **`--` subtracts one** exactly from a last word that is at least two: it borrows when the word
    becomes zero, and not when it was zero. -/
theorem subtracts_iff (a : Words) : Subtracts a ↔ a 3 ≠ 0 ∧ a 3 ≠ 1 := by
  have hlt := value_lt a
  have hmod := value_mod a
  have hminus : (-1 : UInt64).toNat = 2 ^ 64 - 1 := rfl
  have hzero : a 3 = 0 ↔ (a 3).toNat = 0 := UInt64.toNat_inj.symm
  have hone : a 3 = 1 ↔ (a 3).toNat = 1 := UInt64.toNat_inj.symm
  have hborrow : a 3 + -1 = 0 ↔ a 3 = 1 := by grind
  constructor
  · rintro ⟨b, hb, hvalue⟩
    have hlt' := value_lt b
    have hneOne : a 3 ≠ 1 := by
      intro h
      have hvalue' := value_mod_of_eq (hborrow.mpr h) hb
      rw [hone] at h
      omega
    refine ⟨fun h => ?_, hneOne⟩
    -- no word borrows for a last word that is zero
    have hvalue' := value_of_ne (fun h => hneOne (hborrow.mp h)) hb
    rw [hzero] at h
    omega
  · rintro ⟨hneZero, hneOne⟩
    have hne : a 3 + -1 ≠ 0 := fun h => hneOne (hborrow.mp h)
    refine ⟨change (-1) a 3, by rw [decrement, subOne, carry_last hne], ?_⟩
    have hvalue := value_of_ne hne (carry_last hne)
    have hword := (a 3).toNat_lt
    rw [Ne, hzero] at hneZero
    rw [Ne, hone] at hneOne
    omega

/-- One change of the last word and the opposite one give the words back, if neither of them goes on
    to the next word. -/
theorem undo_iff (hd : d + d ≠ 0) (a : Words) :
    (carry d 3 (by decide) a).bind (carry (-d) 3 (by decide)) = some a ↔ a 3 ≠ 0 ∧ a 3 + d ≠ 0 := by
  by_cases hzero : a 3 + d = 0
  · -- the way there changes `a[2]` twice, the way back leaves it alone
    refine iff_of_false ?_ (fun h => h.2 hzero)
    obtain ⟨b, hb, hlast, hnext⟩ := carry_of_eq hzero
    have hback : b 3 + -d ≠ 0 := by
      rw [hlast]
      grind
    rw [hb, Option.bind_some, carry_last hback]
    intro h
    have htwo := congrFun (Option.some.inj h) 2
    rw [change_of_ne (by decide), hnext] at htwo
    grind
  · rw [carry_last hzero, Option.bind_some]
    by_cases hlow : a 3 = 0
    · -- now the way back changes it
      refine iff_of_false ?_ (fun h => h.1 hlow)
      obtain ⟨b, hb, -, hnext⟩ := carry_of_eq (a := change d a 3) (d := -d)
        (by rw [change_self, hlow]; grind)
      intro h
      have htwo := congrFun (Option.some.inj (hb.symm.trans h)) 2
      rw [hnext, change_of_ne (by decide)] at htwo
      grind
    · refine iff_of_true ?_ ⟨hlow, hzero⟩
      have hback : change d a 3 3 + -d = a 3 := by
        rw [change_self]
        grind
      rw [carry_last fun h => hlow (hback.symm.trans h)]
      congr 1
      funext j
      by_cases hj : j = 3
      · subst hj
        exact (change_self _ _ _).trans hback
      · exact (change_of_ne hj).trans (change_of_ne hj)

/-- **Counting up and down**, for every state of the counter: `++` is right unless the last word
    carries, and `--` is right exactly if the last word is at least two. -/
theorem counts (a : Words) :
    (Adds a ↔ a 3 ≠ -1) ∧ (Subtracts a ↔ a 3 ≠ 0 ∧ a 3 ≠ 1) ∧
    ((increment a).bind decrement = some a ↔ a 3 ≠ 0 ∧ a 3 ≠ -1) ∧
    ((decrement a).bind increment = some a ↔ a 3 ≠ 0 ∧ a 3 ≠ 1) := by
  have hcarry : a 3 + 1 = 0 ↔ a 3 = -1 := by grind
  have hborrow : a 3 + -1 = 0 ↔ a 3 = 1 := by grind
  refine ⟨adds_iff a, subtracts_iff a, ?_, ?_⟩
  · have h := undo_iff (d := 1) (by decide) a
    rwa [ne_eq (a 3 + 1), hcarry] at h
  · have h := undo_iff (d := -1) (by decide) a
    rwa [ne_eq (a 3 + -1), hborrow] at h

/-- `2 ^ 64 - 1` and one is `2 ^ 65`, and `0` less one is `2 ^ 64 - 1`. -/
theorem counts_wrong :
    (∃ b, increment ![0, 0, 0, -1] = some b ∧ value ![0, 0, 0, -1] = 2 ^ 64 - 1 ∧
      value b = 2 ^ 65) ∧
    ∃ b, decrement ![0, 0, 0, 0] = some b ∧ value ![0, 0, 0, 0] = 0 ∧ value b = 2 ^ 64 - 1 := by
  refine ⟨⟨![0, 0, 2, 0], ?_, ?_, ?_⟩, ⟨![0, 0, 0, -1], ?_, ?_, ?_⟩⟩ <;> decide +kernel

/-! ### Adding a number -/

/-- A word as a `long`. -/
def long (x : UInt64) : Int := x.toInt64.toInt

/-- `operator+=`.  The sum of two `long`s is modulo `2 ^ 64`. -/
def addAssign (v : UInt64) (a : Words) : Option Words :=
  let v0 := a 3
  let a := change v a 3
  if 0 < long v0 ∧ 0 < long v then
    if long (a 3) < long v0 ∧ long (a 3) < long v then
      addOne 2 (by decide) (Function.update a 3 (a 3 &&& ~~~((1 : UInt64) <<< 63)))
    else some a
  else if long v0 < 0 ∧ long v < 0 then
    if long v0 < long (a 3) ∧ long v < long (a 3) then subOne 2 (by decide) a else some a
  else some a

/-- `+=` adds the number. -/
def AddsLong (v : UInt64) (a : Words) : Prop :=
  ∃ b, addAssign v a = some b ∧ (value b : Int) = (value a + long v) % 2 ^ 256

/-- A word as a `long`. -/
theorem long_eq (x : UInt64) :
    long x = if x.toNat < 2 ^ 63 then (x.toNat : Int) else x.toNat - 2 ^ 64 := by
  have hnat : x.toBitVec.toNat = x.toNat := rfl
  show x.toBitVec.toInt = _
  rw [BitVec.toInt_eq_toNat_cond, hnat]
  split <;> split <;> omega

/-- Clearing the sign. -/
theorem toNat_and_mask (x : UInt64) :
    (x &&& ~~~((1 : UInt64) <<< 63)).toNat = x.toNat % 2 ^ 63 := by
  have hmask : (~~~((1 : UInt64) <<< 63)).toNat = 2 ^ 63 - 1 := by decide +kernel
  rw [UInt64.toNat_and, hmask, Nat.and_two_pow_sub_one_eq_mod]

/-- **What `+=` does**, by the sum of the `long`s.  At an overflow the next word is changed too. -/
theorem addAssign_cases (v : UInt64) (a : Words) :
    (-2 ^ 63 ≤ long (a 3) + long v ∧ long (a 3) + long v < 2 ^ 63 ∧
      addAssign v a = some (change v a 3)) ∨
    (2 ^ 63 ≤ long (a 3) + long v ∧
      ∃ b, addAssign v a = some b ∧ (b 3).toNat = (a 3 + v).toNat % 2 ^ 63) ∨
    (long (a 3) + long v < -2 ^ 63 ∧
      ∃ b, addAssign v a = some b ∧ b 3 = a 3 + v ∧ b 2 = a 2 + -1) := by
  have hword := (a 3).toNat_lt
  have hv := v.toNat_lt
  have hsum : (a 3 + v).toNat = ((a 3).toNat + v.toNat) % 2 ^ 64 := UInt64.toNat_add _ _
  have h₀ := long_eq (a 3)
  have h₁ := long_eq v
  have h₂ := long_eq (a 3 + v)
  simp only [addAssign, change_self]
  -- by the signs of the two numbers, as the source tests for an overflow
  split_ifs with hpos hover hneg hunder
  -- the sum is too large: its sign bit is cleared, and one is carried
  · refine .inr (.inl ⟨by omega, ?_⟩)
    obtain ⟨b, hb, -, hlow⟩ := carry_spec (d := 1) 1 (by decide)
      (Function.update (change v a 3) 3 ((a 3 + v) &&& ~~~((1 : UInt64) <<< 63)))
    refine ⟨b, hb, ?_⟩
    rw [hlow 3 (by decide), Function.update_self, toNat_and_mask]
  · exact .inl ⟨by omega, by omega, rfl⟩
  -- the sum is too small: one is borrowed
  · refine .inr (.inr ⟨by omega, ?_⟩)
    obtain ⟨b, hb, hnext, hlow⟩ := carry_spec (d := -1) 1 (by decide) (change v a 3)
    refine ⟨b, hb, ?_, ?_⟩
    · rw [hlow 3 (by decide), change_self]
    · exact hnext.trans (congrArg (· + -1) (change_of_ne (by decide)))
  · exact .inl ⟨by omega, by omega, rfl⟩
  · exact .inl ⟨by omega, by omega, rfl⟩

/-- **Adding a number**, for every state of the counter: it is right exactly if the sum of the
    `long`s does not overflow and the sign of the last word stays. -/
theorem addsLong_iff (v : UInt64) (a : Words) :
    AddsLong v a ↔ (-2 ^ 63 ≤ long (a 3) + long v ∧ long (a 3) + long v < 2 ^ 63) ∧
      (0 ≤ long (a 3) ↔ 0 ≤ long (a 3) + long v) := by
  have hword := (a 3).toNat_lt
  have hv := v.toNat_lt
  have hsum : (a 3 + v).toNat = ((a 3).toNat + v.toNat) % 2 ^ 64 := UInt64.toNat_add _ _
  have h₀ := long_eq (a 3)
  have h₁ := long_eq v
  have hlt := value_lt a
  have hmod := value_mod a
  have hnext := (a 2).toNat_lt
  obtain ⟨hlow, hhigh, hadd⟩ | ⟨hover, c, hadd, hlast⟩ | ⟨hunder, c, hadd, hlast, htwo⟩ :=
    addAssign_cases v a
  · -- the other words stay, so there must be nothing to carry
    have hchange := value_change v a
    have hlt' := value_lt (change v a 3)
    constructor
    · rintro ⟨b, hb, hvalue⟩
      cases hadd.symm.trans hb
      refine ⟨⟨hlow, hhigh⟩, ?_⟩
      split_ifs at h₀ h₁ <;> omega
    · rintro ⟨-, hsign⟩
      refine ⟨_, hadd, ?_⟩
      split_ifs at h₀ h₁ <;> omega
  · -- the last word is too small by `2 ^ 63`
    refine iff_of_false ?_ (by omega)
    rintro ⟨b, hb, hvalue⟩
    cases hadd.symm.trans hb
    have hmod' := value_mod c
    split_ifs at h₀ h₁ <;> omega
  · -- the word before the last one is too small by one
    refine iff_of_false ?_ (by omega)
    rintro ⟨b, hb, hvalue⟩
    cases hadd.symm.trans hb
    have hmod' := value_mod c
    have hminus : (-1 : UInt64).toNat = 2 ^ 64 - 1 := rfl
    rw [hlast, htwo, UInt64.toNat_add, hminus] at hmod'
    split_ifs at h₀ h₁ <;> omega

/-- The first sum of `main` overflows: three and `LONGMAX` give `2 ^ 64 + 2`. -/
example : ∃ b, addAssign 0x7fffffffffffffff ![0, 0, 0, 3] = some b ∧ value b = 2 ^ 64 + 2 :=
  ⟨![0, 0, 1, 2], by decide +kernel, by decide +kernel⟩

end CPlayground.Counter
