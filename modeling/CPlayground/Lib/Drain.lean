import Mathlib.Data.List.MinMax

namespace CPlayground

/-!
# Emptying a priority queue up to a bound

A queue is the list of its elements.  As long as there is an element with a key below the bound, one
of minimal key is taken out; which one, if there are several, is left open.

* `Drain key bound l out rest` — the elements `out` are taken out of `l` one after another, and then
  `rest` is left.
* `Drain.perm`, `Drain.pairwise`, `Drain.rest_eq` — these are the elements with a key below the
  bound, in the order of their keys, and the others are left as they were.
* `Drain.total` — every queue can be emptied.
-/

variable {α β : Type*} [DecidableEq α] [LinearOrder β] {key : α → β} {bound : β}

/-- The elements `out` are taken out of the queue, and `rest` is left. -/
inductive Drain (key : α → β) (bound : β) : List α → List α → List α → Prop
  | done {l : List α} (h : ∀ u ∈ l, bound ≤ key u) : Drain key bound l [] l
  | pop {l out rest : List α} {t : α} (hmem : t ∈ l) (hmin : ∀ u ∈ l, key t ≤ key u)
      (hlt : key t < bound) (h : Drain key bound (l.erase t) out rest) :
      Drain key bound l (t :: out) rest

namespace Drain

variable {l out rest : List α} {t : α}

/-- Nothing comes out exactly if no element is below the bound, and then everything is left. -/
theorem nil_iff : Drain key bound l [] rest ↔ (∀ u ∈ l, bound ≤ key u) ∧ rest = l := by
  constructor
  · rintro ⟨h⟩
    exact ⟨h, rfl⟩
  · rintro ⟨h, rfl⟩
    exact done h

/-- The first element that comes out is one with the least key, below the bound; the others come out
    of the list without it. -/
theorem cons_iff : Drain key bound l (t :: out) rest ↔
    (t ∈ l ∧ ∀ u ∈ l, key t ≤ key u) ∧ key t < bound ∧ Drain key bound (l.erase t) out rest := by
  constructor
  · rintro (_ | ⟨hmem, hmin, hlt, h⟩)
    exact ⟨⟨hmem, hmin⟩, hlt, h⟩
  · rintro ⟨⟨hmem, hmin⟩, hlt, h⟩
    exact pop hmem hmin hlt h

/-- **What comes out** are the elements below the bound, each as often as it is in the list. -/
theorem perm (h : Drain key bound l out rest) : out.Perm (l.filter fun u => key u < bound) := by
  induction h with
  | done hge =>
    rw [List.filter_eq_nil_iff.mpr]
    intro u hu
    simpa using hge u hu
  | pop hmem hmin hlt h ih =>
    apply (ih.cons _).trans
    have hperm := (List.perm_cons_erase hmem).symm.filter fun u => decide (key u < bound)
    rwa [List.filter_cons, if_pos (decide_eq_true hlt)] at hperm

/-- **They come out by their keys**, the least one first: the next element was in the list all the
    time, so its key is not below the one before it. -/
theorem pairwise (h : Drain key bound l out rest) : out.Pairwise fun t u => key t ≤ key u := by
  induction h with
  | done => exact .nil
  | pop hmem hmin hlt h ih =>
    refine .cons (fun u hu => hmin u ?_) ih
    exact List.mem_of_mem_erase (List.mem_of_mem_filter (h.perm.mem_iff.mp hu))

/-- **What is left** are the elements from the bound on, in the order that they had. -/
theorem rest_eq (h : Drain key bound l out rest) : rest = l.filter fun u => bound ≤ key u := by
  induction h with
  | done hge =>
    rw [List.filter_eq_self.mpr]
    simpa using hge
  | @pop l out rest t hmem hmin hlt h ih =>
    -- the element that is taken out is not one of those that are left
    obtain ⟨before, after, -, hl, herase⟩ := List.exists_erase_eq hmem
    have hnot : ¬ decide (bound ≤ key t) = true := by simpa using hlt
    rw [ih, herase, hl, List.filter_append, List.filter_append, List.filter_cons, if_neg hnot]

/-- **Every list can be drained.**  By induction on its length: as long as the least key is below
    the bound, an element that has it is taken out. -/
theorem total (key : α → β) (bound : β) (l : List α) : ∃ out rest, Drain key bound l out rest := by
  induction hn : l.length generalizing l with
  | zero =>
    rw [List.length_eq_zero_iff] at hn
    subst hn
    exact ⟨[], [], done (by simp)⟩
  | succ n ih =>
    by_cases hge : ∀ u ∈ l, bound ≤ key u
    · exact ⟨[], l, done hge⟩
    · push Not at hge
      obtain ⟨u, hu, hlt⟩ := hge
      obtain ⟨t, ht⟩ : ∃ t, l.argmin key = some t :=
        Option.ne_none_iff_exists'.mp fun hnone =>
          List.ne_nil_of_mem hu (List.argmin_eq_none.mp hnone)
      have hmem := List.argmin_mem ht
      obtain ⟨out, rest, h⟩ := ih (l.erase t) (by rw [List.length_erase_of_mem hmem, hn]; rfl)
      exact ⟨t :: out, rest, pop hmem (fun _ hv => List.le_of_mem_argmin hv ht)
        ((List.le_of_mem_argmin hu ht).trans_lt hlt) h⟩

end Drain

end CPlayground
