import Mathlib.Data.UInt

namespace CPlayground.CType

/-!
# The characters of C

The functions of `<ctype.h>` on a byte, as they are in the locale that a program starts in.

* `isspace` — white space.
* `toupper`, `tolower` — the letters of the other case.
* `isspace_toupper`, `toupper_of_isspace` — what is white space stays so, and stays as it is.
-/

/-- `isspace`: the blank, and the characters from the tabulator to the carriage return.  The
    terminator is none of them, nor is a byte from `0x80` on. -/
def isspace (c : UInt8) : Bool := c.toNat = 32 ∨ 9 ≤ c.toNat ∧ c.toNat ≤ 13

/-- `toupper`. -/
def toupper (c : UInt8) : UInt8 := if 0x61 ≤ c.toNat ∧ c.toNat ≤ 0x7a then c - 0x20 else c

/-- `tolower`. -/
def tolower (c : UInt8) : UInt8 := if 0x41 ≤ c.toNat ∧ c.toNat ≤ 0x5a then c + 0x20 else c

/-- The case of a character does not matter for `isspace`: no letter is white space, in either of
    its cases. -/
theorem isspace_toupper (c : UInt8) : isspace (toupper c) = isspace c := by
  unfold toupper
  split
  · next h =>
    have hsub : (c - 0x20).toNat = c.toNat - 32 := by
      rw [UInt8.toNat_sub_of_le]
      · rfl
      · rw [UInt8.le_iff_toNat_le]
        show 32 ≤ _
        omega
    rw [isspace, isspace, hsub, decide_eq_decide]
    omega
  · rfl

/-- White space has no case. -/
theorem toupper_of_isspace {c : UInt8} (h : isspace c = true) : toupper c = c := by
  rw [isspace, decide_eq_true_eq] at h
  rw [toupper, if_neg (by omega)]

/-- A loop over white space stops at the terminator. -/
theorem isspace_zero : isspace 0 = false := by decide

end CPlayground.CType
