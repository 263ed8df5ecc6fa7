import CPlayground.Lib.Table

namespace CPlayground.Handles

open CPlayground.Table

/-!
# Handles and who holds them

A table says what each open handle stands for.  A handle is given out again once it is closed, so
the holder of a handle is a pair: the handle, and the name of what it was given out for.

* `Owns hs table` — no two of the holders `hs` have the same handle, and each handle still stands
  for what its holder has got it for.
* `Owns.cons`, `Owns.release` — a holder more, and one that closes its handle.
* `Owns.congr` — a table in which other handles have changed.
-/

variable {ν κ : Type*} [DecidableEq ν] {hs hs' : List (ν × κ)} {table table' : AList fun _ : ν => κ}
  {n : ν} {c : κ}

/-- **Ownership.**  No number has two owners, and each handle is the one that the table has for its
    number. -/
structure Owns (hs : List (ν × κ)) (table : AList fun _ : ν => κ) : Prop where
  nodup : (hs.map Prod.fst).Nodup
  lookup : ∀ h ∈ hs, table.lookup h.1 = some h.2

/-- Nobody owns anything. -/
theorem owns_nil : Owns [] table := ⟨List.nodup_nil, fun _ h => absurd h List.not_mem_nil⟩

/-- It does not matter in which order the owners are listed. -/
theorem Owns.perm (h : Owns hs table) (hp : hs.Perm hs') : Owns hs' table where
  nodup := (hp.map Prod.fst).nodup_iff.mp h.nodup
  lookup := fun x hx => h.lookup x (hp.mem_iff.mpr hx)

/-- Only the entries of the numbers that are owned matter. -/
theorem Owns.congr (h : Owns hs table)
    (htable : ∀ x ∈ hs, table'.lookup x.1 = table.lookup x.1) : Owns hs table' where
  nodup := h.nodup
  lookup := fun x hx => (htable x hx).trans (h.lookup x hx)

/-- Something that nobody holds gets a holder. -/
theorem Owns.cons (h : Owns hs table) (hopen : table.lookup n = some c)
    (hc : c ∉ hs.map Prod.snd) : Owns ((n, c) :: hs) table where
  nodup := by
    rw [List.map_cons, List.nodup_cons]
    refine ⟨fun hmem => ?_, h.nodup⟩
    obtain ⟨x, hx, rfl⟩ := List.mem_map.mp hmem
    have hlookup := h.lookup x hx
    rw [hopen] at hlookup
    cases hlookup
    exact hc (List.mem_map_of_mem hx)
  lookup := List.forall_mem_cons.mpr ⟨hopen, h.lookup⟩

/-- A handle that is free is given out. -/
theorem Owns.insert (h : Owns hs table) (hfree : table.lookup n = none) :
    Owns hs (table.insert n c) := by
  refine h.congr fun x hx => AList.lookup_insert_ne ?_
  rintro rfl
  rw [h.lookup x hx] at hfree
  cases hfree

/-- The handles of the other holders. -/
theorem Owns.ne_of_mem (h : Owns ((n, c) :: hs) table) {x : ν × κ} (hx : x ∈ hs) : x.1 ≠ n := by
  have hnodup := h.nodup
  rw [List.map_cons, List.nodup_cons] at hnodup
  rintro rfl
  exact hnodup.1 (List.mem_map.mpr ⟨x, hx, rfl⟩)

/-- A holder closes its handle. -/
theorem Owns.release (h : Owns ((n, c) :: hs) table) : Owns hs (table.erase n) where
  nodup := (List.nodup_cons.mp h.nodup).2
  lookup := fun x hx => by
    rw [AList.lookup_erase_ne (h.ne_of_mem hx)]
    exact h.lookup x (List.mem_cons_of_mem _ hx)

end CPlayground.Handles
