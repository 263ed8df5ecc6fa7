import CPlayground.Lib.Table

namespace CPlayground.Monitor

open CPlayground.Table

/-!
# `Poll`: entries and the descriptors they own

`Poll` keeps an entry for every descriptor it watches, and the destructor of an entry closes the
descriptor.  Descriptors are numbers that the kernel gives out again after a `close`, so each
accepted connection has a name of its own, which the program never sees.

* `Poll.accept`, `Poll.close` — the kernel's side: which connection an open descriptor stands for.
* `Poll.registerEntry`, `Poll.remove`, `Poll.erase` — the entries.
* `Poll.Owned` — an entry is about the connection its descriptor stands for.
-/

/-- The entries of a `Poll`, with the descriptors of the process. -/
structure Poll (κ : Type*) where
  /-- `entry_map_`: the connection each registered descriptor was accepted for. -/
  entry_map : AList fun _ : Nat => κ
  /-- The kernel's table of open descriptors. -/
  fds : AList fun _ : Nat => κ
  /-- The connections closed so far, one entry for each `close`. -/
  closed : List κ

namespace Poll

variable {κ : Type*} {p : Poll κ} {fd : Nat} {c : κ}

/-- A `Poll` without entries, in a process without descriptors. -/
def empty : Poll κ := ⟨∅, ∅, []⟩

/-- `accept` returns `fd` for the connection `c`. -/
def accept (p : Poll κ) (fd : Nat) (c : κ) : Poll κ := { p with fds := p.fds.insert fd c }

/-- `util::Close`: whatever connection `fd` stands for is closed. -/
def close (p : Poll κ) (fd : Nat) : Poll κ :=
  match p.fds.lookup fd with
  | none   => p
  | some c => { p with fds := p.fds.erase fd, closed := c :: p.closed }

/-- `Poll::registerEntry`.  An entry that is replaced ends up in the local `entry`, whose destructor
    closes the descriptor the new entry is about. -/
def registerEntry (p : Poll κ) (fd : Nat) (c : κ) : Poll κ :=
  let q := { p with entry_map := p.entry_map.insert fd c }
  if fd ∈ p.entry_map then q.close fd else q

/-- `Poll::remove(fd, &entry)`: the entry moves out, and the descriptor with it. -/
def remove (p : Poll κ) (fd : Nat) : Poll κ := { p with entry_map := p.entry_map.erase fd }

/-- `entry_map_.erase(fd)`: the destructor of the entry closes its descriptor. -/
def erase (p : Poll κ) (fd : Nat) : Poll κ :=
  if fd ∈ p.entry_map then (p.remove fd).close fd else p

/-- Every entry is about the connection its descriptor stands for. -/
def Owned (p : Poll κ) : Prop :=
  ∀ fd c, p.entry_map.lookup fd = some c → p.fds.lookup fd = some c

/-- There is no entry whose descriptor could be missing. -/
theorem owned_empty : Owned (empty : Poll κ) := fun _ _ h => absurd h lookup_empty_ne_some

/-- A descriptor that is not open has no entry. -/
theorem Owned.lookup_none (h : Owned p) (hfree : p.fds.lookup fd = none) :
    p.entry_map.lookup fd = none := by
  cases he : p.entry_map.lookup fd with
  | none => rfl
  | some c =>
    rw [h fd c he] at hfree
    cases hfree

/-- An open descriptor is closed. -/
theorem close_of_lookup (h : p.fds.lookup fd = some c) :
    p.close fd = { p with fds := p.fds.erase fd, closed := c :: p.closed } := by
  rw [close, h]

/-- A `close` is about one descriptor. -/
theorem lookup_close_ne {k : Nat} (hk : k ≠ fd) : (p.close fd).fds.lookup k = p.fds.lookup k := by
  rw [close]
  split
  · rfl
  · exact AList.lookup_erase_ne hk

/-- What is open after a `close` was open before. -/
theorem lookup_of_lookup_close {k : Nat} (h : (p.close fd).fds.lookup k = some c) :
    p.fds.lookup k = some c := by
  rw [close] at h
  split at h
  · exact h
  · exact (lookup_erase_eq_some.mp h).2

/-- `close` does not touch the map. -/
@[simp] theorem entry_map_close : (p.close fd).entry_map = p.entry_map := by
  rw [close]
  split <;> rfl

/-- A descriptor that `accept` has just returned has no entry yet. -/
theorem register_accept (h : Owned p) (hfree : p.fds.lookup fd = none) :
    (p.accept fd c).registerEntry fd c =
      { p with entry_map := p.entry_map.insert fd c, fds := p.fds.insert fd c } := by
  exact if_neg (not_mem_of_lookup (h.lookup_none hfree))

/-- Erasing an entry closes the connection it is about. -/
theorem erase_of_lookup (h : Owned p) (he : p.entry_map.lookup fd = some c) :
    p.erase fd = { entry_map := p.entry_map.erase fd, fds := p.fds.erase fd,
                   closed := c :: p.closed } := by
  have hopen : (p.remove fd).fds.lookup fd = some c := h fd c he
  rw [erase, if_pos (mem_of_lookup he), close_of_lookup hopen]
  rfl

/-- Erasing takes an entry away, if there is one. -/
theorem lookup_erase_entry {k : Nat} {e : κ} :
    (p.erase fd).entry_map.lookup k = some e ↔ k ≠ fd ∧ p.entry_map.lookup k = some e := by
  rw [erase]
  split
  · rw [entry_map_close, remove, lookup_erase_eq_some]
  · rename_i hmem
    refine (and_iff_right_of_imp ?_).symm
    rintro hk rfl
    exact hmem (mem_of_lookup hk)

/-- Ownership after an entry is added. -/
theorem owned_insert (h : Owned p) :
    Owned { p with entry_map := p.entry_map.insert fd c, fds := p.fds.insert fd c } := by
  intro k e hk
  rw [lookup_insert_eq_some] at hk ⊢
  exact hk.imp_right fun ⟨hne, hlook⟩ => ⟨hne, h k e hlook⟩

/-- Ownership after an entry is moved out or erased. -/
theorem owned_erase (h : Owned p) {l : List κ} :
    Owned { entry_map := p.entry_map.erase fd, fds := p.fds.erase fd, closed := l } := by
  intro k e hk
  rw [lookup_erase_eq_some] at hk ⊢
  exact ⟨hk.1, h k e hk.2⟩

/-- Erasing an entry closes its descriptor only, which no other entry has. -/
theorem Owned.erase (h : Owned p) (fd : Nat) : Owned (p.erase fd) := by
  cases he : p.entry_map.lookup fd with
  | none =>
    rw [Poll.erase, if_neg (not_mem_of_lookup he)]
    exact h
  | some c =>
    rw [erase_of_lookup h he]
    exact owned_erase h

end Poll

end CPlayground.Monitor
