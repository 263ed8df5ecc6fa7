import Mathlib.Data.List.AList

namespace CPlayground.Table

/-!
# Finite maps

A `std::unordered_map` is Mathlib's `AList`: entries with distinct keys.  The lemmas here read
`lookup` after an update as a statement about the lookups before it, and count the values of a map.

* `insertNew m a b` — `insert({a, b})` of the standard containers, which keeps an entry that is
  already there.
* `pairs m`, `values m` — the entries, and their values; an entry that is erased takes one of them
  away.
-/

variable {α β : Type*} [DecidableEq α] {m : AList fun _ : α => β} {a k : α} {b v : β}

/-- Nothing is found in an empty table. -/
theorem lookup_empty_ne_some : (∅ : AList fun _ : α => β).lookup k ≠ some v := by
  rw [AList.lookup_empty]
  exact Option.some_ne_none v ∘ Eq.symm

/-- What is found after an insertion: the new value under its key, and the old ones under the
    others. -/
theorem lookup_insert_eq_some :
    (m.insert a b).lookup k = some v ↔ (k = a ∧ b = v) ∨ (k ≠ a ∧ m.lookup k = some v) := by
  by_cases h : k = a
  · subst h
    simp
  · simp [AList.lookup_insert_ne h, h]

/-- What is found after an erasure: the values under the other keys. -/
theorem lookup_erase_eq_some :
    (m.erase a).lookup k = some v ↔ k ≠ a ∧ m.lookup k = some v := by
  by_cases h : k = a
  · subst h
    simp
  · simp [AList.lookup_erase_ne h, h]

/-- Several entries that are erased one after another. -/
theorem lookup_foldl_erase_eq_some {ks : List α} :
    (ks.foldl (fun m k => m.erase k) m).lookup k = some v ↔ k ∉ ks ∧ m.lookup k = some v := by
  induction ks generalizing m with
  | nil => simp
  | cons a ks ih =>
    rw [List.foldl_cons, ih, lookup_erase_eq_some, List.mem_cons, not_or, and_left_comm, and_assoc]

/-- A key under which nothing is found is not in the table. -/
theorem not_mem_of_lookup (h : m.lookup a = none) : a ∉ m := AList.lookup_eq_none.mp h

/-- A key under which something is found is. -/
theorem mem_of_lookup (h : m.lookup a = some b) : a ∈ m := by
  rw [← AList.lookup_isSome, h]
  rfl

/-- `insert({a, b})`: an entry for `a` that is already there stays. -/
def insertNew (m : AList fun _ : α => β) (a : α) (b : β) : AList fun _ : α => β :=
  if a ∈ m then m else m.insert a b

/-- `insertNew` leaves the value of a key that is already there. -/
theorem lookup_insertNew_eq_some :
    (insertNew m a b).lookup k = some v ↔
      m.lookup k = some v ∨ (k = a ∧ b = v ∧ m.lookup a = none) := by
  unfold insertNew
  split
  · rename_i h
    have hne : m.lookup a ≠ none := fun hnone => not_mem_of_lookup hnone h
    simp [hne]
  · rename_i h
    have hnone : m.lookup a = none := AList.lookup_eq_none.mpr h
    rw [lookup_insert_eq_some]
    by_cases hk : k = a
    · subst hk
      simp [hnone]
    · simp [hk]

/-! ### The entries of a map -/

/-- The entries, as pairs. -/
def pairs (m : AList fun _ : α => β) : List (α × β) := m.entries.map fun e => (e.1, e.2)

/-- The pairs are those that a lookup finds. -/
theorem mem_pairs : (k, v) ∈ pairs m ↔ m.lookup k = some v := by
  rw [← Option.mem_def, AList.mem_lookup_iff]
  simp [pairs, Sigma.exists]

/-- A new key adds one pair. -/
theorem pairs_insert (h : a ∉ m) : pairs (m.insert a b) = (a, b) :: pairs m := by
  rw [pairs, AList.entries_insert_of_notMem h, List.map_cons, pairs]

/-- An erased entry is taken away, once. -/
theorem pairs_perm (m : AList fun _ : α => β) (a : α) :
    (pairs m).Perm (((m.lookup a).map (a, ·)).toList ++ pairs (m.erase a)) := by
  by_cases h : a ∈ m
  · obtain ⟨c, l₁, l₂, -, hentries, herase⟩ := List.exists_of_kerase (AList.mem_keys.mp h)
    have hmem : (⟨a, c⟩ : Sigma fun _ : α => β) ∈ m.entries := by simp [hentries]
    rw [Option.mem_def.mp (AList.mem_lookup_iff.mpr hmem)]
    show (m.entries.map _).Perm ((a, c) :: (m.entries.kerase a).map _)
    rw [herase, hentries, List.map_append, List.map_append, List.map_cons]
    exact List.perm_middle
  · rw [AList.lookup_eq_none.mpr h]
    show (m.entries.map _).Perm ((m.entries.kerase a).map _)
    rw [List.kerase_of_notMem_keys (AList.mem_keys.not.mp h)]

/-- Erasing a key takes its pair out. -/
theorem pairs_erase (h : m.lookup a = some b) :
    (pairs m).Perm ((a, b) :: pairs (m.erase a)) := by
  have hperm := pairs_perm m a
  rwa [h] at hperm

/-- The values of the entries. -/
def values (m : AList fun _ : α => β) : List β := m.entries.map Sigma.snd

omit [DecidableEq α] in
/-- The values are those of the pairs. -/
theorem map_snd_pairs : (pairs m).map Prod.snd = values m := by
  rw [pairs, List.map_map]
  rfl

/-- The values are those that a lookup finds under some key. -/
theorem mem_values : v ∈ values m ↔ ∃ k, m.lookup k = some v := by
  rw [← map_snd_pairs, List.mem_map]
  constructor
  · rintro ⟨⟨k, w⟩, hmem, rfl⟩
    exact ⟨k, mem_pairs.mp hmem⟩
  · rintro ⟨k, hmem⟩
    exact ⟨(k, v), mem_pairs.mpr hmem, rfl⟩

/-- A new key adds one value. -/
theorem values_insert (h : a ∉ m) : values (m.insert a b) = b :: values m := by
  rw [← map_snd_pairs, pairs_insert h, List.map_cons, map_snd_pairs]

/-- A new entry takes the place of one with its key. -/
theorem values_insert_erase : values (m.insert a b) = b :: values (m.erase a) := by
  rw [values, AList.entries_insert, List.map_cons]
  rfl

/-- An erased entry takes its value away, once. -/
theorem values_perm (m : AList fun _ : α => β) (a : α) :
    (values m).Perm ((m.lookup a).toList ++ values (m.erase a)) := by
  have hperm := (pairs_perm m a).map Prod.snd
  rw [List.map_append, map_snd_pairs, map_snd_pairs] at hperm
  cases h : m.lookup a with
  | none => rwa [h] at hperm
  | some b => rwa [h] at hperm

/-- Erasing a key takes one occurrence of its value out; another key may have the same value. -/
theorem values_erase (h : m.lookup a = some b) : (values m).Perm (b :: values (m.erase a)) := by
  have hperm := values_perm m a
  rwa [h] at hperm

/-- Two entries that exchange their values. -/
theorem values_swap {e : α} {x y : β} (hx : m.lookup a = some x) (hy : m.lookup e = some y) :
    (values ((m.insert a y).insert e x)).Perm (values m) := by
  have he : (m.insert a y).lookup e = some y := by
    rw [lookup_insert_eq_some]
    by_cases h : e = a
    · exact .inl ⟨h, rfl⟩
    · exact .inr ⟨h, hy⟩
  have hperm := values_erase he
  rw [values_insert_erase] at hperm
  rw [values_insert_erase]
  exact (hperm.cons_inv.symm.cons x).trans (values_erase hx).symm

end CPlayground.Table
