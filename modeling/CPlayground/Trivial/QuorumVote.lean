import CPlayground.Lib.Trace
import Mathlib.Algebra.Order.Ring.Int
import Mathlib.Data.List.Induction

namespace CPlayground.QuorumVote

/-!
# `quorum_vote.c`

A vote by cancellation: a candidate and a counter, which goes up for a vote for the candidate and
down for another one; at zero the next vote is the new candidate.

* `Surplus` — after every prefix a value has at most half of the votes and half of what the counter
  says for it, or against it.
* `majority_vote` — so a value with more than half of the votes is the candidate at the end.
-/

/-- The variables `v`, which is not initialised at first, and `c`. -/
structure State where
  v : Option Int32
  c : Int

/-- One round of the loop, for the vote `x`.  A candidate that is not initialised has no value. -/
def round (s : State) (x : Int32) : Option State :=
  (if s.c = 0 then some x else s.v).map fun v => { v := some v, c := s.c + if v = x then 1 else -1 }

/-- The rounds for the votes `a`. -/
def rounds (a : List Int32) : Option State := Trace.exec round ⟨none, 0⟩ a

/-- `quorum_vote(a, len)`. -/
def quorumVote (a : List Int32) : Option Int32 := (rounds a).bind State.v

/-- What the counter says of a value: the candidate may have that many votes more than the others
    together, and every other value has that many less. -/
def credit (s : State) (y : Int32) : Int := if s.v = some y then s.c else -s.c

/-- The candidate and the counter after the votes `p`.  `count` is the balance: twice the votes for
    a value are at most all votes and its credit, which is the counter for the candidate and minus
    the counter for the others. -/
structure Surplus (p : List Int32) (s : State) : Prop where
  nonneg : 0 ≤ s.c
  le : s.c ≤ p.length
  init : s.c ≠ 0 → ∃ v, s.v = some v
  count : ∀ y, 2 * (p.count y : Int) ≤ p.length + credit s y

variable {p : List Int32} {s : State} {x y v : Int32}

/-- One vote, for the candidate that there is or for the new one. -/
theorem round_eq (h : (if s.c = 0 then some x else s.v) = some v) :
    round s x = some ⟨some v, s.c + if v = x then 1 else -1⟩ := by
  rw [round, h, Option.map_some]

/-- **One vote** gives its value at least one more, and takes at most one from the others. -/
theorem credit_round (h : (if s.c = 0 then some x else s.v) = some v) (y : Int32) :
    credit s y + (if x = y then 1 else -1)
      ≤ credit ⟨some v, s.c + if v = x then 1 else -1⟩ y := by
  simp only [credit, Option.some.injEq]
  by_cases hc : s.c = 0
  · -- the vote is the new candidate
    rw [if_pos hc, Option.some.injEq] at h
    subst h
    simp only [hc, if_true]
    split <;> split <;> omega
  · rw [if_neg hc] at h
    rw [h]
    simp only [Option.some.injEq]
    by_cases hvx : v = x
    · subst hvx
      simp only [if_true]
      split <;> omega
    · rw [if_neg hvx]
      by_cases hvy : v = y
      · subst hvy
        rw [if_pos rfl, if_neg (Ne.symm hvx), if_pos rfl]
      · rw [if_neg hvy, if_neg hvy]
        split <;> omega

/-- A vote is counted for its value. -/
theorem count_concat (p : List Int32) (x y : Int32) :
    ((p ++ [x]).count y : Int) = p.count y + if x = y then 1 else 0 := by
  rw [List.count_append, List.count_singleton]
  by_cases h : x = y
  · simp [h]
  · simp [h]

/-- **One vote keeps the balance**: a value whose votes grow by one gets one more credit, and the
    others lose at most one. -/
theorem Surplus.round (hs : Surplus p s) (x : Int32) :
    ∃ t, round s x = some t ∧ Surplus (p ++ [x]) t := by
  -- there is a candidate after the first vote, and with a counter of zero it is this one
  obtain ⟨v, hv⟩ : ∃ v, (if s.c = 0 then some x else s.v) = some v := by
    by_cases hc : s.c = 0
    · exact ⟨x, if_pos hc⟩
    · rw [if_neg hc]
      exact hs.init hc
  have hnonneg := hs.nonneg
  have hle := hs.le
  have hlength : ((p ++ [x]).length : Int) = p.length + 1 := by simp
  refine ⟨_, round_eq hv, ?_, ?_, fun _ => ⟨v, rfl⟩, ?_⟩
  -- a counter of zero takes a new candidate, so that it does not become negative
  · show 0 ≤ s.c + if v = x then 1 else -1
    by_cases hc : s.c = 0
    · rw [if_pos hc, Option.some.injEq] at hv
      rw [if_pos hv.symm, hc]
      decide
    · split <;> omega
  · show s.c + (if v = x then 1 else -1) ≤ _
    rw [hlength]
    split <;> omega
  · intro y
    have hcount := hs.count y
    have hcredit := credit_round hv y
    rw [count_concat, hlength]
    by_cases hxy : x = y
    · rw [if_pos hxy] at hcredit ⊢
      omega
    · rw [if_neg hxy] at hcredit ⊢
      omega

/-- **The state after all the votes**, by induction over them. -/
theorem surplus_rounds (a : List Int32) : ∃ s, rounds a = some s ∧ Surplus a s := by
  induction a using List.reverseRecOn with
  | nil => exact ⟨⟨none, 0⟩, rfl, by decide, by decide, by simp, by simp [credit]⟩
  | append_singleton p x ih =>
    obtain ⟨s, hs, hsurplus⟩ := ih
    obtain ⟨t, ht, hsurplus'⟩ := hsurplus.round x
    refine ⟨t, Trace.exec_append_eq_some.mpr ⟨s, hs, ?_⟩, hsurplus'⟩
    exact Trace.exec_cons_eq_some.mpr ⟨t, ht, rfl⟩

/-- **Majority.**  A value with more than half of the votes is returned, and the counter never is
    more than the number of the votes. -/
theorem majority_vote (a : List Int32) (x : Int32) (hmajority : a.length < 2 * a.count x) :
    quorumVote a = some x ∧
      ∀ p, p <+: a → ∃ s, rounds p = some s ∧ 0 ≤ s.c ∧ s.c ≤ p.length := by
  constructor
  · obtain ⟨s, hs, hsurplus⟩ := surplus_rounds a
    rw [quorumVote, hs, Option.bind_some]
    by_contra hne
    have hcount := hsurplus.count x
    rw [credit, if_neg hne] at hcount
    have hnonneg := hsurplus.nonneg
    omega
  · intro p _
    obtain ⟨s, hs, hsurplus⟩ := surplus_rounds p
    exact ⟨s, hs, hsurplus.nonneg, hsurplus.le⟩

/-- The votes of `main`: four of seven are for 2. -/
theorem majority_vote_main : quorumVote [1, 2, 3, 2, 5, 2, 2] = some 2 :=
  (majority_vote [1, 2, 3, 2, 5, 2, 2] 2 (by decide)).1

end CPlayground.QuorumVote
