import Mathlib.Data.List.TakeWhile
import Mathlib.Tactic.TypeStar

namespace CPlayground.Words

/-!
# Words and separators

A scanner that passes over a word and the separators behind it splits a list in three.

* `Item sp cs word gap rest` — `cs` begins with the word `word` and the separators `gap`.
* `exists_item`, `item_or_not_sep` — a list without such a beginning has no separator.
-/

variable {α : Type*} {sp : α → Bool} {cs word gap rest : List α}

/-- A text that begins with a word, which may be empty, and has at least one separator behind it;
    `rest` begins with the next word, if there is one. -/
structure Item (sp : α → Bool) (cs word gap rest : List α) : Prop where
  eq : cs = word ++ (gap ++ rest)
  not_sep : ∀ c ∈ word, sp c = false
  sep : ∀ c ∈ gap, sp c = true
  gap_ne_nil : gap ≠ []
  rest_head : ∀ c ∈ rest.head?, sp c = false

/-- Without a separator at the beginning, the word is not empty. -/
theorem Item.word_ne_nil (h : Item sp cs word gap rest) (hhead : ∀ c ∈ cs.head?, sp c = false) :
    word ≠ [] := by
  rintro rfl
  obtain ⟨g, gap, rfl⟩ := List.exists_cons_of_ne_nil h.gap_ne_nil
  rw [h.eq] at hhead
  have hsep := h.sep g List.mem_cons_self
  rw [hhead g rfl] at hsep
  cases hsep

/-- Behind the spaces there is no space. -/
theorem head_dropWhile (sp : α → Bool) (cs : List α) :
    ∀ c ∈ (cs.dropWhile sp).head?, sp c = false := by
  intro c hc
  have hhead := List.head?_dropWhile_not sp cs
  rw [Option.mem_def.mp hc] at hhead
  simpa using hhead

/-- The separators up to the next word. -/
theorem exists_gap (sp : α → Bool) (cs : List α) :
    ∃ gap rest, cs = gap ++ rest ∧ (∀ c ∈ gap, sp c = true) ∧ ∀ c ∈ rest.head?, sp c = false :=
  ⟨cs.takeWhile sp, cs.dropWhile sp, List.takeWhile_append_dropWhile.symm,
    fun _ hc => List.mem_takeWhile_imp hc, head_dropWhile sp cs⟩

/-- A text with a space in it begins with a word, which may be empty, and a gap behind it. -/
theorem exists_item (h : ∃ c ∈ cs, sp c = true) : ∃ word gap rest, Item sp cs word gap rest := by
  obtain ⟨word, tail, rfl, hword, htail⟩ := exists_gap (fun c => !sp c) cs
  obtain ⟨gap, rest, rfl, hgap, hrest⟩ := exists_gap sp tail
  have hword' : ∀ c ∈ word, sp c = false := fun c hc => by simpa using hword c hc
  refine ⟨word, gap, rest, rfl, hword', hgap, ?_, hrest⟩
  -- without a separator behind the word there is none at all
  rintro rfl
  obtain ⟨c, hc, hsp⟩ := h
  cases rest with
  | nil =>
    rw [List.append_nil, List.append_nil] at hc
    rw [hword' c hc] at hsp
    cases hsp
  | cons b rest =>
    have hb := hrest b rfl
    have hb' := htail b rfl
    rw [hb] at hb'
    cases hb'

/-- A list has a first item, or it is one word. -/
theorem item_or_not_sep (sp : α → Bool) (cs : List α) :
    (∃ word gap rest, Item sp cs word gap rest) ∨ ∀ c ∈ cs, sp c = false := by
  by_cases h : ∃ c ∈ cs, sp c = true
  · exact .inl (exists_item h)
  · refine .inr fun c hc => ?_
    rw [← Bool.not_eq_true]
    exact fun hsp => h ⟨c, hc, hsp⟩

end CPlayground.Words
