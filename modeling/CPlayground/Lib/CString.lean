import Mathlib.Algebra.Ring.Int.Defs
import Mathlib.Data.List.TakeWhile
import Mathlib.Data.Nat.Log
import Mathlib.Data.Nat.Notation
import Mathlib.Data.UInt

namespace CPlayground.CString

/-!
# Strings of C

A string is the list of its characters up to the terminator; a pointer into it is a suffix.

* `strchr`, `strrchr` — the first and the last occurrence of a character.
* `strncmpEq` — `strncmp(s, t, n) == 0`.
* `atoi`, `strtoull` — the number at the beginning of a string, as the C library converts it on a
  machine with a 64-bit `long`.
* `decimal` — what `%d` and `%u` print; it is read back whatever follows it (`numeral_decimal`).
* `hex` — what `%0*X` prints; its digits are those of the number in base 16 (`hex_eq`).
-/

section

variable {α : Type*} {c : α}

/-- Where a character stands last. -/
theorem exists_append_cons {x : List α} (h : c ∈ x) : ∃ y z, x = y ++ c :: z ∧ c ∉ z := by
  obtain ⟨z, y, hrev, hz⟩ := List.eq_append_cons_of_mem (List.mem_reverse.mpr h)
  refine ⟨y.reverse, z.reverse, ?_, by rwa [List.mem_reverse]⟩
  rw [← List.reverse_reverse x, hrev]
  simp

/-- What stands behind the last occurrence of a character is empty exactly if the text ends with
    it. -/
theorem getLast?_append_cons_eq {x y : List α} (h : c ∉ y) :
    (x ++ c :: y).getLast? = some c ↔ y = [] := by
  cases y with
  | nil => simp
  | cons a y =>
    rw [List.getLast?_append_of_ne_nil _ (by simp), List.getLast?_cons_cons]
    exact iff_of_false (fun hc => h (List.mem_of_getLast? hc)) (by simp)

end

/-! ### Searching and comparing -/

section

variable {α : Type*} [DecidableEq α] {c : α} {s : List α}

/-- `strchr`: the suffix at the first `c`. -/
def strchr (c : α) : List α → Option (List α)
  | []     => none
  | a :: s => if a = c then some (a :: s) else strchr c s

/-- `strrchr`: the suffix at the last `c`. -/
def strrchr (c : α) : List α → Option (List α)
  | []     => none
  | a :: s =>
    match strrchr c s with
    | some t => some t
    | none   => if a = c then some (a :: s) else none

/-- `strncmp(s, t, n) == 0`.  The character after the last one is `nul`. -/
def strncmpEq (nul : α) : Nat → List α → List α → Bool
  | 0,     _, _ => true
  | n + 1, s, t =>
    s.headD nul == t.headD nul && (s.headD nul == nul || strncmpEq nul n s.tail t.tail)

/-- `strchr` finds the first occurrence, and returns the text from there on. -/
theorem strchr_append {pre : List α} (h : c ∉ pre) : strchr c (pre ++ c :: s) = some (c :: s) := by
  induction pre with
  | nil => simp [strchr]
  | cons a pre ih =>
    rw [List.mem_cons, not_or] at h
    rw [List.cons_append, strchr, if_neg (Ne.symm h.1), ih h.2]

/-- Where a character stands first. -/
theorem append_cons_inj {x x' y y' : List α} (hx : c ∉ x) (hx' : c ∉ x')
    (h : x ++ c :: y = x' ++ c :: y') : x = x' ∧ y = y' := by
  have hy : c :: y = c :: y' := by
    rw [← Option.some_inj, ← strchr_append hx, h, strchr_append hx']
  rw [hy] at h
  exact ⟨List.append_cancel_right h, List.cons_inj_right c |>.mp hy⟩

/-- A character that is not in a text differs from all that are, as `takeWhile` and `dropWhile` ask
    for it. -/
theorem forall_mem_ne {x : List α} (h : c ∉ x) : ∀ a ∈ x, decide (a ≠ c) = true := by
  intro a ha
  rw [decide_eq_true_iff]
  rintro rfl
  exact h ha

/-- The part in front of the first occurrence. -/
theorem takeWhile_ne_append {x : List α} (h : c ∉ x) (y : List α) :
    (x ++ c :: y).takeWhile (· ≠ c) = x := by
  rw [List.takeWhile_append_of_pos (forall_mem_ne h), List.takeWhile_cons_of_neg (by simp),
    List.append_nil]

/-- The part from the first occurrence on. -/
theorem dropWhile_ne_append {x : List α} (h : c ∉ x) (y : List α) :
    (x ++ c :: y).dropWhile (· ≠ c) = c :: y := by
  rw [List.dropWhile_append_of_pos (forall_mem_ne h), List.dropWhile_cons_of_neg (by simp)]

/-- `strrchr` does not find a character that is not there. -/
theorem strrchr_eq_none (h : c ∉ s) : strrchr c s = none := by
  induction s with
  | nil => rfl
  | cons a s ih =>
    rw [List.mem_cons, not_or] at h
    rw [strrchr, ih h.2]
    exact if_neg (Ne.symm h.1)

/-- `strrchr` finds the last occurrence, and returns the text from there on. -/
theorem strrchr_append (pre : List α) (h : c ∉ s) :
    strrchr c (pre ++ c :: s) = some (c :: s) := by
  induction pre with
  | nil =>
    rw [List.nil_append, strrchr, strrchr_eq_none h]
    exact if_pos rfl
  | cons a pre ih => rw [List.cons_append, strrchr, ih]

/-- Compared with a word of `n` characters, a string is equal if it begins with the word. -/
theorem strncmpEq_iff {nul : α} {t : List α} (ht : nul ∉ t) :
    strncmpEq nul t.length s t = true ↔ t <+: s := by
  induction t generalizing s with
  | nil => simp [strncmpEq]
  | cons b t ih =>
    have hb : b ≠ nul := fun heq => ht (heq ▸ List.mem_cons_self)
    have ih := fun s => ih (s := s) fun ha => ht (List.mem_cons_of_mem _ ha)
    rw [List.length_cons, strncmpEq]
    cases s with
    | nil => simp [hb.symm]
    | cons a s =>
      simp only [List.headD_cons, List.tail_cons, Bool.and_eq_true, Bool.or_eq_true, beq_iff_eq,
        List.cons_prefix_cons, ih]
      constructor
      · rintro ⟨rfl, hnul | hpre⟩
        · exact absurd hnul hb
        · exact ⟨rfl, hpre⟩
      · rintro ⟨rfl, hpre⟩
        exact ⟨rfl, .inr hpre⟩

end

/-! ### Numbers -/

/-- `isspace`. -/
def isSpace (c : Char) : Bool := c == ' ' || (9 ≤ c.toNat && c.toNat ≤ 13)

/-- The number at the beginning of a string: whether there is a minus sign, and the digits. -/
def numeral (s : List Char) : Bool × Nat :=
  match s.dropWhile isSpace with
  | '-' :: r => (true, digits r)
  | '+' :: r => (false, digits r)
  | r        => (false, digits r)
where
  /-- The value of the digits at the beginning of a string. -/
  digits (r : List Char) : Nat := Nat.ofDigitChars 10 (r.takeWhile Char.isDigit) 0

/-- `strtol`, which stops at the ends of `long`. -/
def strtol (s : List Char) : Int :=
  max (-2 ^ 63) (min (2 ^ 63 - 1) (if (numeral s).1 then -(numeral s).2 else (numeral s).2))

/-- `atoi`: the result of `strtol`, converted to `int`. -/
def atoi (s : List Char) : Int32 := Int32.ofInt (strtol s)

/-- `strtoull`: a minus sign negates in the unsigned type. -/
def strtoull (s : List Char) : UInt64 :=
  if 2 ^ 64 ≤ (numeral s).2 then 2 ^ 64 - 1
  else if (numeral s).1 then -UInt64.ofNat (numeral s).2 else UInt64.ofNat (numeral s).2

/-- What `%d` prints for an `int`, and `%u` for an `unsigned`. -/
def decimal (z : Int) : List Char :=
  if z < 0 then '-' :: Nat.toDigits 10 z.natAbs else Nat.toDigits 10 z.natAbs

/-- What `%0*X` prints: the number in upper-case base 16, filled up with zeros to `width` digits. -/
def hex (width n : Nat) : List Char := ((Nat.toDigits 16 n).map Char.toUpper).leftpad width '0'

/-- A number is printed with digits. -/
theorem isDigit_of_mem_toDigits {n : Nat} {c : Char} (h : c ∈ Nat.toDigits 10 n) :
    c.isDigit = true := Nat.isDigit_of_mem_toDigits (by decide) (by decide) h

/-- A number has no character but digits and the sign. -/
theorem not_mem_decimal {z : Int} {c : Char} (hsign : c ≠ '-') (hdigit : c.isDigit = false) :
    c ∉ decimal z := by
  have hnot : c ∉ Nat.toDigits 10 z.natAbs := by
    intro h
    rw [isDigit_of_mem_toDigits h] at hdigit
    cases hdigit
  unfold decimal
  split_ifs
  · exact List.mem_cons.not.mpr (not_or.mpr ⟨hsign, hnot⟩)
  · exact hnot

/-- How many characters a number is printed with: its digits and the sign. -/
theorem length_decimal (z : Int) :
    (decimal z).length = Nat.log 10 z.natAbs + 1 + if z < 0 then 1 else 0 := by
  have hdigits : (Nat.toDigits 10 z.natAbs).length = Nat.log 10 z.natAbs + 1 := by
    apply Nat.le_antisymm
    · rw [Nat.length_toDigits_le_iff (by decide) (by omega)]
      exact Nat.lt_pow_succ_log_self (by decide) _
    · have hpos : 0 < (Nat.toDigits 10 z.natAbs).length := Nat.length_toDigits_pos
      have hlt := (Nat.length_toDigits_le_iff (by decide) hpos).mp le_rfl
      exact Nat.log_lt_of_lt_pow' hpos.ne' hlt
  unfold decimal
  split_ifs
  · rw [List.length_cons, hdigits]
  · rw [hdigits]

/-- A bound on how many characters a natural number is printed with. -/
theorem length_decimal_le {n k : Nat} (hk : 0 < k) (h : n < 10 ^ k) : (decimal n).length ≤ k := by
  rw [decimal, if_neg (by omega), Int.natAbs_natCast]
  exact (Nat.length_toDigits_le_iff (by decide) hk).mpr h

/-- The digits of a printed number are read up to the first character that is not one, and give the
    number. -/
theorem digits_toDigits (n : Nat) {rest : List Char}
    (hrest : ∀ c ∈ rest.head?, c.isDigit = false) :
    numeral.digits (Nat.toDigits 10 n ++ rest) = n := by
  have htake : (Nat.toDigits 10 n ++ rest).takeWhile Char.isDigit = Nat.toDigits 10 n := by
    rw [List.takeWhile_append_of_pos fun c hc => isDigit_of_mem_toDigits hc]
    cases rest with
    | nil => simp
    | cons c rest => simp [hrest c rfl]
  rw [numeral.digits, htake, Nat.ofDigitChars_ten_toDigits]

/-- A digit is neither white space nor a sign, so that a text which begins with one is read as a
    number from its first character on. -/
theorem numeral_of_isDigit {c : Char} {r : List Char} (hc : c.isDigit = true) :
    numeral (c :: r) = (false, numeral.digits (c :: r)) := by
  have hval : 48 ≤ c.toNat ∧ c.toNat ≤ 57 := by
    simpa [Char.isDigit, UInt32.le_iff_toNat_le] using hc
  have hspace : isSpace c = false := by
    have hne : c ≠ ' ' := by
      rintro rfl
      cases hc
    simp [isSpace, hne]
    omega
  rw [numeral, List.dropWhile_cons_of_neg (by simp [hspace])]
  split
  · rename_i heq
    cases heq
    cases hc
  · rename_i heq
    cases heq
    cases hc
  · rfl

/-- **A printed number is read back**, whatever follows it but a digit, with its sign and its
    absolute value. -/
theorem numeral_decimal (z : Int) {rest : List Char}
    (hrest : ∀ c ∈ rest.head?, c.isDigit = false) :
    numeral (decimal z ++ rest) = (decide (z < 0), z.natAbs) := by
  have hdigits := digits_toDigits z.natAbs hrest
  unfold decimal
  split_ifs with hz
  · have hminus : numeral ('-' :: (Nat.toDigits 10 z.natAbs ++ rest))
        = (true, numeral.digits (Nat.toDigits 10 z.natAbs ++ rest)) := rfl
    rw [List.cons_append, hminus, hdigits, decide_eq_true hz]
  · obtain ⟨c, cs, hcons⟩ :=
      List.exists_cons_of_ne_nil (Nat.toDigits_ne_nil (n := z.natAbs) (b := 10))
    have hc : c.isDigit = true := isDigit_of_mem_toDigits (hcons ▸ List.mem_cons_self)
    rw [hcons, List.cons_append] at hdigits ⊢
    rw [numeral_of_isDigit hc, hdigits, decide_eq_false hz]

/-- **`atoi` reads back what `%d` prints**, whatever follows it but a digit. -/
theorem atoi_decimal {z : Int} (hlow : -2 ^ 31 ≤ z) (hhigh : z < 2 ^ 31) {rest : List Char}
    (hrest : ∀ c ∈ rest.head?, c.isDigit = false) : atoi (decimal z ++ rest) = Int32.ofInt z := by
  have hvalue : (if decide (z < 0) = true then -(z.natAbs : Int) else (z.natAbs : Int)) = z := by
    split_ifs with hz
    · rw [decide_eq_true_eq] at hz
      omega
    · rw [decide_eq_true_eq] at hz
      omega
  have hlong : max (-2 ^ 63) (min (2 ^ 63 - 1) z) = z := by omega
  unfold atoi strtol
  rw [numeral_decimal z hrest, hvalue, hlong]

/-- The same at the end of a text. -/
theorem atoi_decimal_end {z : Int} (hlow : -2 ^ 31 ≤ z) (hhigh : z < 2 ^ 31) :
    atoi (decimal z) = Int32.ofInt z := by
  have h := @atoi_decimal z hlow hhigh [] (by simp)
  rwa [List.append_nil] at h

/-- **`strtoull` reads back what `%lu` prints**, whatever follows it but a digit. -/
theorem strtoull_decimal {n : Nat} (hn : n < 2 ^ 64) {rest : List Char}
    (hrest : ∀ c ∈ rest.head?, c.isDigit = false) :
    strtoull (decimal n ++ rest) = UInt64.ofNat n := by
  unfold strtoull
  rw [numeral_decimal n hrest, Int.natAbs_natCast, if_neg (by omega)]
  exact if_neg (by simp)

/-- The digits of a number that has at most `k + 1` of them, filled up with zeros. -/
theorem leftpad_toDigits {b k n : Nat} (hb : 1 < b) (hn : n < b ^ (k + 1)) :
    (Nat.toDigits b n).leftpad (k + 1) '0'
      = (List.range (k + 1)).reverse.map fun i => Nat.digitChar (n / b ^ i % b) := by
  induction k generalizing n with
  | zero =>
    have hlt : n < b := by simpa using hn
    rw [Nat.toDigits_of_lt_base hlt]
    simp [List.leftpad, Nat.mod_eq_of_lt hlt]
  | succ k ih =>
    have hdiv : n / b < b ^ (k + 1) := by
      apply Nat.div_lt_of_lt_mul
      rwa [← Nat.pow_succ']
    -- the last digit is the one of `b ^ 0`, the others are those of `n / b`
    have hlast : (List.range (k + 1 + 1)).reverse.map (fun i => Nat.digitChar (n / b ^ i % b))
        = (List.range (k + 1)).reverse.map (fun i => Nat.digitChar (n / b / b ^ i % b))
          ++ [Nat.digitChar (n % b)] := by
      rw [List.range_succ_eq_map, List.reverse_cons, List.map_append, ← List.map_reverse,
        List.map_map]
      simp [Function.comp_def, Nat.div_div_eq_div_mul, Nat.pow_succ']
    rw [hlast, ← ih hdiv]
    by_cases hlt : n < b
    · rw [Nat.div_eq_of_lt hlt, Nat.mod_eq_of_lt hlt, Nat.toDigits_of_lt_base hlt,
        Nat.toDigits_zero]
      simp [List.leftpad, List.replicate_succ']
    · rw [Nat.toDigits_of_base_le hb (by omega)]
      simp [List.leftpad]

/-- **The digits of `%0*X`**, from the highest one on, for a number that the width is enough for. -/
theorem hex_eq {k n : Nat} (hn : n < 16 ^ (k + 1)) :
    hex (k + 1) n
      = (List.range (k + 1)).reverse.map fun i => (Nat.digitChar (n / 16 ^ i % 16)).toUpper := by
  have hmap : hex (k + 1) n = ((Nat.toDigits 16 n).leftpad (k + 1) '0').map Char.toUpper := by
    unfold hex List.leftpad
    rw [List.map_append, List.map_replicate, List.length_map]
    rfl
  rw [hmap, leftpad_toDigits (by decide) hn, List.map_map]
  rfl

end CPlayground.CString
