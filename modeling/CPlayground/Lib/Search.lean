import Mathlib.Tactic.TypeStar

namespace CPlayground.Search

/-!
# `bsearch`

The comparison of the key with an element is a number whose sign counts, or `none` where it has no
value.  The interval of the search is the list of its elements.

* `bsearch cmp xs` — the binary search.
* `bsearch_eq_find` — in a sorted array it finds the element that is equal to the key.
-/

variable {α : Type*}

/-- The rounds of `bsearch` on the elements that are left, for at most `n` rounds. -/
def rounds (cmp : α → Option Int) : Nat → List α → Option (Option α)
  | 0,     _  => some none
  | n + 1, xs =>
    match xs.drop (xs.length / 2) with
    | []         => some none
    | a :: right => (cmp a).bind fun c =>
      if c < 0 then rounds cmp n (xs.take (xs.length / 2))
      else if c > 0 then rounds cmp n right
      else some (some a)

/-- `bsearch`, with the comparison of the key.  Each round makes the interval smaller. -/
def bsearch (cmp : α → Option Int) (xs : List α) : Option (Option α) := rounds cmp xs.length xs

variable {cmp : α → Option Int} {f : α → Int} {xs : List α}

/-! ### An element that the key is compared with -/

section

variable {left right : List α} {a : α}
  (hsorted : (left ++ a :: right).Pairwise fun a b => f a ≤ 0 → f b < 0)

include hsorted

/-- In a sorted array everything in front of an element that is not below the key is above it. -/
theorem pos_of_mem_left (ha : 0 ≤ f a) : ∀ b ∈ left, 0 < f b := by
  intro b hb
  refine Int.not_le.mp fun hle => ?_
  have hlt := (List.pairwise_append.mp hsorted).2.2 b hb a List.mem_cons_self hle
  omega

/-- And everything behind an element that is not above the key is below it. -/
theorem neg_of_mem_right (ha : f a ≤ 0) : ∀ b ∈ right, f b < 0 := by
  intro b hb
  have hright := (List.pairwise_append.mp hsorted).2.1
  exact (List.pairwise_cons.mp hright).1 b hb ha

/-- If the middle is below the key, the search goes on in the left half: nothing at or behind the
    middle is equal to the key. -/
theorem find_of_neg (ha : f a < 0) :
    (left ++ a :: right).find? (fun b => f b = 0) = left.find? fun b => f b = 0 := by
  have hnone : (a :: right).find? (fun b => f b = 0) = none := by
    rw [List.find?_eq_none]
    intro b hb
    rcases List.mem_cons.mp hb with rfl | hb
    · simp
      omega
    · have hlt := neg_of_mem_right hsorted (by omega) b hb
      simp
      omega
  rw [List.find?_append, hnone, Option.or_none]

/-- Otherwise it goes on from the middle on, as nothing in front of it is equal to the key. -/
theorem find_of_nonneg (ha : 0 ≤ f a) :
    (left ++ a :: right).find? (fun b => f b = 0) = (a :: right).find? fun b => f b = 0 := by
  have hnone : left.find? (fun b => f b = 0) = none := by
    rw [List.find?_eq_none]
    intro b hb
    have hlt := pos_of_mem_left hsorted ha b hb
    simp
    omega
  rw [List.find?_append, hnone, Option.none_or]

end

/-- **Binary search**: if an element that is not smaller than the key has only greater ones behind
    it, then the search gives what a linear one does. -/
theorem rounds_eq_find {n : Nat} (hn : xs.length ≤ n) (hcmp : ∀ a ∈ xs, cmp a = some (f a))
    (hsorted : xs.Pairwise fun a b => f a ≤ 0 → f b < 0) :
    rounds cmp n xs = some (xs.find? fun a => f a = 0) := by
  induction n generalizing xs with
  | zero =>
    rw [Nat.le_zero, List.length_eq_zero_iff] at hn
    subst hn
    rfl
  | succ n ih =>
    have hsplit := List.take_append_drop (xs.length / 2) xs
    rw [rounds]
    cases hright : xs.drop (xs.length / 2) with
    | nil =>
      -- no element is left
      rw [List.drop_eq_nil_iff] at hright
      have hlen : xs.length = 0 := by omega
      rw [List.length_eq_zero_iff] at hlen
      subst hlen
      rfl
    | cons a right =>
      generalize hleft : xs.take (xs.length / 2) = left at hsplit
      rw [hright] at hsplit
      subst hsplit
      rw [List.length_append, List.length_cons] at hn
      have hparts := List.pairwise_append.mp hsorted
      simp only [hcmp a (by simp), Option.bind_some]
      split
      · -- the element is greater than the key: the search goes on before it
        next hlt =>
        rw [ih (by omega) (fun b hb => hcmp b (by simp [hb])) hparts.1, find_of_neg hsorted hlt]
      · next hge =>
        rw [find_of_nonneg hsorted (by omega)]
        split
        · next hgt =>
          have hright := (List.pairwise_cons.mp hparts.2.1).2
          rw [ih (by omega) (fun b hb => hcmp b (by simp [hb])) hright,
            List.find?_cons_of_neg (by simp; omega)]
        · rw [List.find?_cons_of_pos (by simp; omega)]

/-- **Binary search is linear search** on a sorted array, in which it finds the only element that is
    equal to the key, or none. -/
theorem bsearch_eq_find (hcmp : ∀ a ∈ xs, cmp a = some (f a))
    (hsorted : xs.Pairwise fun a b => f a ≤ 0 → f b < 0) :
    bsearch cmp xs = some (xs.find? fun a => f a = 0) :=
  rounds_eq_find (Nat.le_refl _) hcmp hsorted

end CPlayground.Search
