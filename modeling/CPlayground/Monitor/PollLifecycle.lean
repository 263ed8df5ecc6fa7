import CPlayground.Lib.Handles
import CPlayground.Lib.Trace
import CPlayground.Monitor.Poll
import Mathlib.Algebra.Order.Group.Multiset
import Mathlib.Tactic.Abel

namespace CPlayground.Monitor

open CPlayground.Table CPlayground.Trace CPlayground.Handles

/-!
# The life of a `Poll`

The descriptors that a `Poll` owns are closed by destructors: those of its entries, in the map or
taken out by a caller, that of the pipe of the terminator, and that of the closure that closes the
epoll descriptor.  `loop` registers the read end of the pipe, so that an entry owns it as well.

A run interleaves the calls of the client with what the rest of the process does with its own
descriptors.  The number of a descriptor that is closed is given out again, so each descriptor has a
name, as in `Poll`; an `int` that is -1 is `none`.  The registration of an entry with epoll, which
its destructor takes back, does not matter here.

* `PollLife.step` — the constructor, the operations, `loop`, and the destructor, member by member.
* `PollLife.Accounts` — who has to close which descriptor, and what was closed.
* `poll_descriptors` — a `Poll` whose `loop` is not called closes every descriptor once; after
  `loop`, the read end of the pipe is closed twice.
-/

namespace PollLife

/-- A call of `close`: the descriptor it is meant for, what its number stands for, and whether
    `entry_map_` has an entry for the number. -/
structure Call (κ : Type*) where
  owner : κ
  hit : Option κ
  live : Bool
  deriving DecidableEq

/-- Where the `Poll` is: before a call of its constructor, at its client's hands, or in its
    destructor before a member. -/
inductive Pc where
  | pipe2
  | epoll_create1
  | idle
  | looping
  | returned
  | entry_map
  | writeEnd
  | cleanup
  | gone
  deriving DecidableEq

/-- The `Poll` is constructed, and its destructor has not begun. -/
def Pc.alive : Pc → Bool
  | .idle     => true
  | .looping  => true
  | .returned => true
  | _         => false

/-- What is recorded of a run: the read end of the pipe, whether `loop` was called, the calls of
    `close`, and the names of the descriptors of the `Poll` and of all that were opened. -/
structure Ledger (κ : Type*) where
  readEnd : Option (Nat × κ) := none
  looped : Bool := false
  calls : List (Call κ) := []
  owned : List κ := []
  named : List κ := []

end PollLife

/-- A `Poll`, the entries that callers have taken, and the descriptors of the process. -/
structure PollLife (κ : Type*) where
  poll : Poll κ := .empty
  taken : AList fun _ : Nat => Nat × κ := ∅
  /-- `terminator_.pipe_.fds_[kRead]`, `fds_[kWrite]`, and `epoll_handler_`. -/
  read : Option (Nat × κ) := none
  write : Option (Nat × κ) := none
  epoll_handler : Option (Nat × κ) := none
  pc : PollLife.Pc := .pipe2
  triggered : Bool := false
  ledger : PollLife.Ledger κ := {}

namespace PollLife

variable {κ : Type*}

/-- `close(fd)`. -/
def closeRaw (s : PollLife κ) (fd : Nat × κ) : PollLife κ :=
  { s with
    poll := s.poll.close fd.1
    ledger := { s.ledger with
      calls := s.ledger.calls
        ++ [⟨fd.2, s.poll.fds.lookup fd.1, decide (fd.1 ∈ s.poll.entry_map)⟩] } }

/-- `util::Close(fd)`, which asks whether the descriptor is valid first. -/
def close (s : PollLife κ) (fd : Nat × κ) : PollLife κ :=
  if fd.1 ∈ s.poll.fds then s.closeRaw fd else s

/-- Another descriptor is opened. -/
def opened (s : PollLife κ) (fd : Nat × κ) : PollLife κ :=
  { s with
    poll := s.poll.accept fd.1 fd.2
    ledger := { s.ledger with named := fd.2 :: s.ledger.named } }

/-- `Poll::registerEntry`.  The destructor of the local `entry` closes the descriptor of an entry
    that is replaced. -/
def registerEntry (s : PollLife κ) (fd : Nat × κ) : PollLife κ :=
  let t := { s with poll := { s.poll with entry_map := s.poll.entry_map.insert fd.1 fd.2 } }
  match s.poll.entry_map.lookup fd.1 with
  | none     => t
  | some old => t.close (fd.1, old)

/-- `entry_map_.erase(fd)`. -/
def erase (s : PollLife κ) (fd : Nat) : PollLife κ :=
  match s.poll.entry_map.lookup fd with
  | none   => s
  | some c => { s with poll := s.poll.remove fd }.close (fd, c)

/-- The entry in the map becomes the caller's. -/
def moveOut (s : PollLife κ) (fd slot : Nat) : PollLife κ :=
  { s with
    poll := s.poll.remove fd
    taken := match s.poll.entry_map.lookup fd with
      | none   => s.taken.erase slot
      | some c => s.taken.insert slot (fd, c) }

/-- `remove(fd, &entry)`.  The two entries are swapped, so that it is the caller's old one that
    `erase` destroys. -/
def take (s : PollLife κ) (fd slot : Nat) : PollLife κ :=
  match s.taken.lookup slot with
  | none     => s.moveOut fd slot
  | some old => (s.moveOut fd slot).close old

/-- A step of a run: of the process around the `Poll`, of its constructor, of its client, of its
    loop, or of its destructor. -/
inductive Act (κ : Type*) where
  | opened (fd : Nat × κ)    -- somebody opens a descriptor
  | shut (fd : Nat)          -- and closes one that is not the `Poll`'s
  | pipe2 (ends : Option ((Nat × κ) × (Nat × κ)))
  | epoll_create1 (fd : Option (Nat × κ))
  | registerEntry (fd : Nat)
  | remove (fd : Nat)
  | take (fd slot : Nat)
  | destroyTaken (slot : Nat)
  | onClose (fd : Nat)       -- the `erase` of the hook
  | loop
  | quit
  | leave                    -- the quit handler throws
  | destroy                  -- the destructor begins
  | destroyEntry (fd : Nat)
  | closeReadEnd
  | closeWriteEnd
  | cleanup
  deriving DecidableEq

/-- The number and the name are not in use. -/
def Fresh (s : PollLife κ) (fd : Nat × κ) : Prop :=
  fd.1 ∉ s.poll.fds ∧ fd.2 ∉ s.ledger.named

instance [DecidableEq κ] (s : PollLife κ) (fd : Nat × κ) : Decidable (s.Fresh fd) :=
  inferInstanceAs (Decidable (_ ∧ _))

/-- The descriptors handed over to the `Poll`. -/
def own (s : PollLife κ) (names : List κ) : PollLife κ :=
  { s with ledger := { s.ledger with owned := names ++ s.ledger.owned } }

/-- One step of a run.  The constructor goes through `pipe2` and `epoll_create1`, either of which
    may fail; the destructor through the entries, the ends of the pipe and the closure, in the order
    of the members. -/
def step [DecidableEq κ] (s : PollLife κ) : Act κ → Option (PollLife κ)
  | .opened fd => if s.Fresh fd then some (s.opened fd) else none
  | .shut fd =>
    match s.poll.fds.lookup fd with
    | some c => if c ∈ s.ledger.owned then none else some { s with poll := s.poll.close fd }
    | none   => none
  | .pipe2 none => if s.pc = .pipe2 then some { s with pc := .epoll_create1 } else none
  | .pipe2 (some (r, w)) =>
    if s.pc = .pipe2 ∧ s.Fresh r ∧ (s.opened r).Fresh w then
      let t := ((s.opened r).opened w).own [r.2, w.2]
      some { t with
        read := some r, write := some w, pc := .epoll_create1
        ledger := { t.ledger with readEnd := some r } }
    else none
  | .epoll_create1 none => if s.pc = .epoll_create1 then some { s with pc := .idle } else none
  | .epoll_create1 (some fd) =>
    if s.pc = .epoll_create1 ∧ s.Fresh fd then
      some { (s.opened fd).own [fd.2] with epoll_handler := some fd, pc := .idle }
    else none
  | .registerEntry fd =>
    match s.poll.fds.lookup fd with
    | some c =>
      if s.pc.alive ∧ c ∉ s.ledger.owned then some ((s.own [c]).registerEntry (fd, c)) else none
    | none => none
  | .remove fd => if s.pc.alive then some (s.erase fd) else none
  | .take fd slot => if s.pc.alive then some (s.take fd slot) else none
  | .destroyTaken slot =>
    match s.taken.lookup slot with
    | some fd => some ({ s with taken := s.taken.erase slot }.close fd)
    | none    => none
  | .onClose fd => if s.pc = .looping then some (s.erase fd) else none
  | .loop =>
    if s.pc = .idle then
      let t := { s with pc := .looping, ledger := { s.ledger with looped := true } }
      match s.read with
      | some fd => some (t.registerEntry fd)
      | none    => some t
    else none
  | .quit => if s.pc.alive then some { s with triggered := true } else none
  | .leave =>
    match s.read with
    | some fd =>
      if s.pc = .looping ∧ s.triggered ∧ s.poll.entry_map.lookup fd.1 = some fd.2 then
        some { s with pc := .returned }
      else none
    | none => none
  | .destroy =>
    if s.pc = .idle ∨ s.pc = .returned then some { s with pc := .entry_map } else none
  | .destroyEntry fd =>
    if s.pc = .entry_map ∧ fd ∈ s.poll.entry_map then some (s.erase fd) else none
  | .closeReadEnd =>
    if s.pc = .entry_map ∧ s.poll.entry_map.entries = [] then
      match s.read with
      | some fd => some ({ s with pc := .writeEnd, read := none }.closeRaw fd)
      | none    => some { s with pc := .writeEnd }
    else none
  | .closeWriteEnd =>
    if s.pc = .writeEnd then
      match s.write with
      | some fd => some ({ s with pc := .cleanup, write := none }.closeRaw fd)
      | none    => some { s with pc := .cleanup }
    else none
  | .cleanup =>
    if s.pc = .cleanup then
      match s.epoll_handler with
      | some fd => some ({ s with pc := .gone, epoll_handler := none }.close fd)
      | none    => some { s with pc := .gone }
    else none

/-- The entry that an act takes out of the map. -/
def Act.key : Act κ → Option Nat
  | .remove fd  => some fd
  | .take fd _  => some fd
  | .onClose fd => some fd
  | _           => none

/-- The client leaves the entry of the terminator alone. -/
def Private (s : PollLife κ) (a : Act κ) : Prop :=
  s.ledger.looped = true → ∀ fd ∈ a.key, s.ledger.readEnd.map Prod.fst ≠ some fd

/-! ### Accounts -/

/-- The read end of the pipe is handed over again when `loop` is called. -/
def Ledger.again (l : Ledger κ) : List κ :=
  if l.looped then l.readEnd.toList.map Prod.snd else []

/-- A call of `close` on behalf of `c`. -/
def Ledger.log (l : Ledger κ) (call : Call κ) : Ledger κ := { l with calls := l.calls ++ [call] }

/-- Every descriptor of the `Poll` is held by one of `hs` or by the pipe, or it was closed; the read
    end of the pipe is one descriptor more when `loop` has been called. -/
structure Accounts (fds : AList fun _ : Nat => κ) (read : Option (Nat × κ)) (l : Ledger κ)
    (hs : List (Nat × κ)) : Prop where
  owns : Owns hs fds
  account : (hs.map Prod.snd ++ (read.toList.map Prod.snd ++ l.calls.map Call.owner)).Perm
    (l.owned ++ l.again)
  nodup : l.owned.Nodup
  named : ∀ c ∈ l.owned, c ∈ l.named
  opened : ∀ n c, fds.lookup n = some c → c ∈ l.named
  readEnd : ∀ r, l.readEnd = some r → r.2 ∈ l.owned
  pipe : ∀ r, read = some r → l.readEnd = some r
  readOpen : ∀ r, read = some r → (fds.lookup r.1 = some r.2 ↔ r.2 ∉ l.calls.map Call.owner)
  readOnly : ∀ r, read = some r → ∀ h ∈ hs, h.1 = r.1 ↔ h.2 = r.2
  live : ∀ k ∈ l.calls, k.live = false
  hit : ∀ k ∈ l.calls, k.hit = some k.owner ∨ k.owner ∈ l.again
  twice : read = none → ∀ c ∈ l.again, ∃ k ∈ l.calls, k.owner = c ∧ k.hit ≠ some c

section Ledger

variable {l : Ledger κ} {r : Nat × κ}

/-- Before `loop` no descriptor is handed over again. -/
theorem Ledger.again_of_not_looped (h : l.looped = false) : l.again = [] := by
  simp [again, h]

/-- Nor is one if there is no pipe. -/
theorem Ledger.again_of_none (h : l.readEnd = none) : l.again = [] := by
  simp [again, h]

/-- After `loop` it is the read end of the pipe that two holders have to close. -/
theorem Ledger.again_of_looped (h : l.looped = true) (hr : l.readEnd = some r) :
    l.again = [r.2] := by
  simp [again, h, hr]

/-- What holds of all calls of `close` after another one. -/
theorem Ledger.forall_log {call : Call κ} {P : Call κ → Prop} :
    (∀ k ∈ (l.log call).calls, P k) ↔ (∀ k ∈ l.calls, P k) ∧ P call := by
  rw [log, List.forall_mem_append, List.forall_mem_singleton]

end Ledger

section Accounts

variable {fds fds' : AList fun _ : Nat => κ} {read : Option (Nat × κ)} {l : Ledger κ}
  {hs hs' : List (Nat × κ)} {n : Nat} {c : κ} {r : Nat × κ}

/-- There are no descriptors yet, and nobody has to close anything. -/
theorem accounts_empty : Accounts (∅ : AList fun _ : Nat => κ) none {} [] where
  owns := owns_nil
  account := .nil
  nodup := List.nodup_nil
  named := fun _ h => absurd h List.not_mem_nil
  opened := fun _ _ h => absurd h lookup_empty_ne_some
  readEnd := fun _ h => by cases h
  pipe := fun _ h => by cases h
  readOpen := fun _ h => by cases h
  readOnly := fun _ h => by cases h
  live := fun _ h => absurd h List.not_mem_nil
  hit := fun _ h => absurd h List.not_mem_nil
  twice := fun _ _ h => absurd h List.not_mem_nil

/-- The holders are a bag: their order does not matter to the accounts. -/
theorem Accounts.perm (h : Accounts fds read l hs) (hp : hs.Perm hs') :
    Accounts fds read l hs' :=
  { h with
    owns := h.owns.perm hp
    account := ((hp.map Prod.snd).symm.append_right _).trans h.account
    readOnly := fun r hr x hx => h.readOnly r hr x (hp.mem_iff.mpr hx) }

/-- Whatever is held, is in the pipe or was closed belongs to the `Poll`; the read end that is
    handed over again does, too. -/
theorem Accounts.mem_owned (h : Accounts fds read l hs)
    (hc : c ∈ hs.map Prod.snd ++ (read.toList.map Prod.snd ++ l.calls.map Call.owner)) :
    c ∈ l.owned := by
  rw [h.account.mem_iff, List.mem_append] at hc
  refine hc.elim id fun hagain => ?_
  unfold Ledger.again at hagain
  split_ifs at hagain
  · obtain ⟨r, hr, rfl⟩ := List.mem_map.mp hagain
    exact h.readEnd r (Option.mem_toList.mp hr)
  · cases hagain

/-- A holder has a descriptor of the `Poll`. -/
theorem Accounts.holder_mem_owned (h : Accounts fds read l hs) {x : Nat × κ} (hx : x ∈ hs) :
    x.2 ∈ l.owned :=
  h.mem_owned (List.mem_append_left _ (List.mem_map_of_mem hx))

/-- While the pipe has its read end, an entry for it or a call of `close` is due to `loop`. -/
theorem Accounts.count_read [DecidableEq κ] (h : Accounts fds (some r) l hs) :
    (hs.map Prod.snd).count r.2 + (l.calls.map Call.owner).count r.2
      = if l.looped then 1 else 0 := by
  have hread := h.pipe r rfl
  have hcount := h.account.count_eq r.2
  have howned := List.count_eq_one_of_mem h.nodup (h.readEnd r hread)
  simp only [List.count_append, howned, Ledger.again, hread, Option.toList_some, List.map_cons,
    List.map_nil, List.count_cons_self, List.count_nil] at hcount
  split_ifs at hcount ⊢ <;> simp at hcount <;> omega

/-- No holder has the read end, if the entry of the terminator is destroyed. -/
theorem Accounts.read_not_held [DecidableEq κ] (h : Accounts fds (some r) l hs)
    (hentry : l.looped = true → r.2 ∈ l.calls.map Call.owner) : r.2 ∉ hs.map Prod.snd := by
  have hcount := h.count_read
  rw [← List.count_eq_zero]
  split_ifs at hcount with hlooped
  · have hpos := List.count_pos_iff.mpr (hentry hlooped)
    omega
  · omega

/-- Nothing but an entry can have closed the read end. -/
theorem Accounts.lookup_read [DecidableEq κ] (h : Accounts fds (some r) l hs)
    (hheld : l.looped = true → r.2 ∈ hs.map Prod.snd) : fds.lookup r.1 = some r.2 := by
  have hcount := h.count_read
  rw [h.readOpen r rfl, ← List.count_eq_zero]
  split_ifs at hcount with hlooped
  · have hpos := List.count_pos_iff.mpr (hheld hlooped)
    omega
  · omega

/-- Somebody opens a descriptor, under a number that is free; it is nobody's in the `Poll` yet. -/
theorem Accounts.open_fd (h : Accounts fds read l hs) (hfree : fds.lookup n = none)
    (hc : c ∉ l.named) : Accounts (fds.insert n c) read { l with named := c :: l.named } hs :=
  { h with
    owns := h.owns.insert hfree
    named := fun d hd => List.mem_cons_of_mem _ (h.named d hd)
    opened := fun m d hd => by
      rw [lookup_insert_eq_some] at hd
      rcases hd with ⟨-, rfl⟩ | ⟨-, hd⟩
      · exact List.mem_cons_self
      · exact List.mem_cons_of_mem _ (h.opened m d hd)
    readOpen := fun r hr => by
      -- a new descriptor is not the read end, even if it gets the number
      have hne : c ≠ r.2 := by
        rintro rfl
        exact hc (h.named _ (h.readEnd r (h.pipe r hr)))
      rw [← h.readOpen r hr, lookup_insert_eq_some]
      constructor
      · rintro (⟨-, hcr⟩ | ⟨-, hlookup⟩)
        · exact absurd hcr hne
        · exact hlookup
      · intro hlookup
        refine .inr ⟨?_, hlookup⟩
        rintro rfl
        rw [hfree] at hlookup
        cases hlookup }

/-- Somebody closes a descriptor that is not the `Poll`'s; the numbers that the `Poll` has are
    others. -/
theorem Accounts.shut_fd (h : Accounts fds read l hs) (hopen : fds.lookup n = some c)
    (hc : c ∉ l.owned) : Accounts (fds.erase n) read l hs :=
  { h with
    owns := h.owns.congr fun x hx => AList.lookup_erase_ne <| by
      rintro rfl
      rw [h.owns.lookup x hx] at hopen
      cases hopen
      exact hc (h.holder_mem_owned hx)
    opened := fun m d hd => h.opened m d (lookup_erase_eq_some.mp hd).2
    readOpen := fun r hr => by
      rw [← h.readOpen r hr, lookup_erase_eq_some]
      refine and_iff_right_of_imp fun hlookup => ?_
      rintro rfl
      rw [hopen] at hlookup
      cases hlookup
      exact hc (h.readEnd r (h.pipe r hr)) }

/-- A descriptor is handed over to the `Poll`: from now on a holder has to close it. -/
theorem Accounts.own_fd (h : Accounts fds read l hs) (hopen : fds.lookup n = some c)
    (hc : c ∉ l.owned) (hread : ∀ r, read = some r → fds.lookup r.1 = some r.2) :
    Accounts fds read { l with owned := c :: l.owned } ((n, c) :: hs) :=
  { h with
    owns := h.owns.cons hopen fun hmem => hc (h.mem_owned (List.mem_append_left _ hmem))
    account := h.account.cons c
    nodup := List.nodup_cons.mpr ⟨hc, h.nodup⟩
    named := List.forall_mem_cons.mpr ⟨h.opened n c hopen, h.named⟩
    readEnd := fun r hr => List.mem_cons_of_mem _ (h.readEnd r hr)
    readOnly := fun r hr => by
      have hne : c ≠ r.2 := fun heq => hc (heq ▸ h.readEnd r (h.pipe r hr))
      refine List.forall_mem_cons.mpr ⟨⟨fun heq => ?_, fun heq => absurd heq hne⟩, h.readOnly r hr⟩
      -- the number of the read end stands for the read end, so it is not the new one's
      have hlookup := hread r hr
      rw [← show n = r.1 from heq, hopen] at hlookup
      exact absurd (Option.some.inj hlookup) hne }

/-- The pipe gets its read end, which no holder has, and which the destructor of the pipe will
    close. -/
theorem Accounts.own_read (h : Accounts fds none l hs) (hopen : fds.lookup r.1 = some r.2)
    (hr : r.2 ∉ l.owned) (hlooped : l.looped = false) :
    Accounts fds (some r) { l with owned := r.2 :: l.owned, readEnd := some r } hs := by
  -- without a loop no descriptor is closed a second time
  have hagain := Ledger.again_of_not_looped hlooped
  have hcalled : r.2 ∉ l.calls.map Call.owner := fun hmem =>
    hr (h.mem_owned (List.mem_append_right _ (List.mem_append_right _ hmem)))
  exact
    { h with
      account := by
        have haccount := h.account.cons r.2
        rw [hagain] at haccount
        simpa [Ledger.again, hlooped] using List.perm_middle.trans haccount
      nodup := List.nodup_cons.mpr ⟨hr, h.nodup⟩
      named := List.forall_mem_cons.mpr ⟨h.opened r.1 r.2 hopen, h.named⟩
      readEnd := fun x hx => by cases hx; exact List.mem_cons_self
      pipe := fun x hx => hx
      readOpen := fun x hx => by cases hx; exact iff_of_true hopen hcalled
      -- no holder has the read end, neither under its number nor as its descriptor
      readOnly := fun x hx y hy => by
        cases hx
        have hne : y.2 ≠ r.2 := fun heq => hr (heq ▸ h.holder_mem_owned hy)
        refine iff_of_false (fun heq => ?_) hne
        have hlookup := h.owns.lookup y hy
        rw [heq, hopen] at hlookup
        exact hne (Option.some.inj hlookup).symm
      hit := fun k hk => (h.hit k hk).imp_right fun hmem => by rw [hagain] at hmem; cases hmem
      twice := fun hx => by cases hx }

/-- `loop` hands the read end over to an entry, too, so that it is to be closed twice from then
    on. -/
theorem Accounts.own_again [DecidableEq κ] (h : Accounts fds (some r) l hs)
    (hlooped : l.looped = false) :
    Accounts fds (some r) { l with looped := true } (r :: hs) := by
  have hagain := Ledger.again_of_not_looped hlooped
  have hopen := h.lookup_read fun htrue => by cases hlooped.symm.trans htrue
  have hheld := h.read_not_held fun htrue => by cases hlooped.symm.trans htrue
  exact
    { h with
      owns := h.owns.cons hopen hheld
      account := by
        have haccount := h.account.cons r.2
        rw [hagain, List.append_nil] at haccount
        have hperm := (List.perm_append_singleton r.2 l.owned).symm
        simpa [Ledger.again, h.pipe r rfl] using haccount.trans hperm
      readOnly := fun x hx => List.forall_mem_cons.mpr ⟨by cases hx; simp, h.readOnly x hx⟩
      hit := fun k hk => (h.hit k hk).imp_right fun hmem => by rw [hagain] at hmem; cases hmem
      twice := fun hx => by cases hx }

/-- Without a read end, `loop` hands nothing over, and every descriptor is closed once as before. -/
theorem Accounts.again_none (h : Accounts fds read l hs) (hnone : l.readEnd = none) :
    Accounts fds read { l with looped := true } hs := by
  have hagain := Ledger.again_of_none hnone
  have hagain' : Ledger.again { l with looped := true } = [] := Ledger.again_of_none hnone
  exact
    { h with
      account := by
        rw [hagain', ← hagain]
        exact h.account
      hit := by
        rw [hagain', ← hagain]
        exact h.hit
      twice := by
        rw [hagain', ← hagain]
        exact h.twice }

/-- A holder closes its descriptor: the number still stands for it, so that the right one is
    closed. -/
theorem Accounts.close_fd (h : Accounts fds read l ((n, c) :: hs)) :
    Accounts (fds.erase n) read (l.log ⟨c, some c, false⟩) hs :=
  { h with
    owns := h.owns.release
    account := by
      refine List.Perm.trans ?_ h.account
      simp only [Ledger.log, List.map_append, List.map_cons, List.map_nil, List.cons_append,
        ← List.append_assoc]
      exact List.perm_append_singleton _ _
    opened := fun m d hd => h.opened m d (lookup_erase_eq_some.mp hd).2
    readOpen := fun r hr => by
      have honly : n = r.1 ↔ c = r.2 := h.readOnly r hr _ List.mem_cons_self
      have hopen := h.readOpen r hr
      rw [lookup_erase_eq_some, hopen]
      simp only [Ledger.log, List.map_append, List.mem_append, List.map_cons, List.map_nil,
        List.mem_singleton, not_or]
      rw [and_comm, ne_comm, ne_eq, honly, eq_comm]
    readOnly := fun r hr x hx => h.readOnly r hr x (List.mem_cons_of_mem _ hx)
    live := Ledger.forall_log.mpr ⟨h.live, rfl⟩
    hit := Ledger.forall_log.mpr ⟨h.hit, .inl rfl⟩
    twice := fun hr d hd => by
      obtain ⟨k, hk, hkd⟩ := h.twice hr d hd
      exact ⟨k, List.mem_append_left _ hk, hkd⟩ }

/-- The pipe closes its read end, whatever the number stands for: if an entry has closed it before,
    this may be another descriptor. -/
theorem Accounts.close_read [DecidableEq κ] (h : Accounts fds (some r) l hs)
    (hentry : l.looped = true → r.2 ∈ l.calls.map Call.owner)
    (hfds : ∀ m, m ≠ r.1 → fds'.lookup m = fds.lookup m)
    (hopened : ∀ m d, fds'.lookup m = some d → fds.lookup m = some d) :
    Accounts fds' none (l.log ⟨r.2, fds.lookup r.1, false⟩) hs :=
  { h with
    owns := h.owns.congr fun x hx => hfds x.1 fun heq => h.read_not_held hentry
      (List.mem_map.mpr ⟨x, hx, (h.readOnly r rfl x hx).mp heq⟩)
    account := by
      refine List.Perm.trans (List.Perm.append_left _ ?_) h.account
      simp only [Ledger.log, List.map_append, List.map_cons, List.map_nil, Option.toList_none,
        Option.toList_some, List.nil_append, List.singleton_append]
      exact List.perm_append_singleton _ _
    opened := fun m d hd => h.opened m d (hopened m d hd)
    pipe := fun x hx => by cases hx
    readOpen := fun x hx => by cases hx
    readOnly := fun x hx => by cases hx
    live := Ledger.forall_log.mpr ⟨h.live, rfl⟩
    hit := by
      refine Ledger.forall_log.mpr ⟨h.hit, ?_⟩
      cases hlooped : l.looped with
      | true =>
        refine .inr ?_
        show r.2 ∈ l.again
        rw [Ledger.again_of_looped hlooped (h.pipe r rfl)]
        exact List.mem_singleton_self _
      | false => exact .inl (h.lookup_read fun htrue => by cases hlooped.symm.trans htrue)
    twice := by
      rintro - d (hd : d ∈ l.again)
      cases hlooped : l.looped with
      | true =>
        -- the entry has closed it before, so the number stands for nothing or for something else
        rw [Ledger.again_of_looped hlooped (h.pipe r rfl), List.mem_singleton] at hd
        subst hd
        refine ⟨_, List.mem_append_right _ (List.mem_singleton_self _), rfl, fun hopen => ?_⟩
        exact (h.readOpen r rfl).mp hopen (hentry hlooped)
      | false =>
        rw [Ledger.again_of_not_looped hlooped] at hd
        cases hd }

end Accounts

/-! ### Who closes what -/

/-- The descriptors that a destructor has to close, that of the pipe's read end apart. -/
def holders (s : PollLife κ) : List (Nat × κ) :=
  pairs s.poll.entry_map ++ (values s.taken ++ (s.write.toList ++ s.epoll_handler.toList))

/-- What there is at each point of the constructor and of the destructor. -/
def Staged (s : PollLife κ) : Prop :=
  match s.pc with
  | .pipe2         => s.ledger.looped = false ∧ s.ledger.readEnd = none ∧ s.write = none ∧
                        s.epoll_handler = none
  | .epoll_create1 => s.ledger.looped = false ∧ s.read = s.ledger.readEnd ∧ s.epoll_handler = none
  | .idle          => s.ledger.looped = false ∧ s.read = s.ledger.readEnd
  | .looping       => s.read = s.ledger.readEnd
  | .returned      => s.read = s.ledger.readEnd
  | .entry_map     => s.read = s.ledger.readEnd
  | .writeEnd      => s.read = none
  | .cleanup       => s.read = none ∧ s.write = none
  | .gone          => s.read = none ∧ s.write = none ∧ s.epoll_handler = none

/-- What holds in every run in which the client leaves the entry of the terminator alone: the
    accounts, the entry of the terminator after `loop` or the record of its `close`, and what there
    is at each point of the `Poll`'s life. -/
structure Sound (s : PollLife κ) : Prop where
  accounts : Accounts s.poll.fds s.read s.ledger s.holders
  entry : s.ledger.looped = true → ∀ r, s.ledger.readEnd = some r →
    s.poll.entry_map.lookup r.1 = some r.2 ∨
      (s.pc.alive = false ∧ r.2 ∈ s.ledger.calls.map Call.owner)
  staged : s.Staged
  cleared : s.pc.alive = false → s.pc ≠ .entry_map → s.poll.entry_map.entries = []

variable {s s' : PollLife κ} {n : Nat} {c : κ} {fd : Nat × κ}

/-- In front of the constructor. -/
theorem sound_init : Sound ({} : PollLife κ) where
  accounts := accounts_empty
  entry := fun h => by cases h
  staged := ⟨rfl, rfl, rfl, rfl⟩
  cleared := fun _ _ => rfl

/-- A call of `close` for a descriptor that stands for what it was opened for. -/
theorem closeRaw_eq (hopen : s.poll.fds.lookup n = some c) (hlive : n ∉ s.poll.entry_map) :
    s.closeRaw (n, c) = { s with
      poll := { s.poll with fds := s.poll.fds.erase n, closed := c :: s.poll.closed }
      ledger := s.ledger.log ⟨c, some c, false⟩ } := by
  unfold closeRaw
  rw [Poll.close_of_lookup hopen, hopen, decide_eq_false hlive]
  rfl

/-- `util::Close` closes a descriptor that is open. -/
theorem close_eq (hopen : s.poll.fds.lookup n = some c) : s.close (n, c) = s.closeRaw (n, c) :=
  if_pos (mem_of_lookup hopen)

/-- What there is where the `Poll` is. -/
theorem Sound.stage (hs : Sound s) {pc : Pc} (hpc : s.pc = pc) : Staged { s with pc := pc } := by
  subst hpc
  exact hs.staged

/-- Past the destructor of the map there are no entries. -/
theorem Sound.no_entry (hs : Sound s) {pc : Pc} (hpc : s.pc = pc) (hdead : pc.alive = false)
    (hne : pc ≠ .entry_map) : s.poll.entry_map.entries = [] := by
  subst hpc
  exact hs.cleared hdead hne

/-- The entry of the terminator is there between `loop` and the destructor. -/
theorem Sound.lookup_entry (hs : Sound s) (halive : s.pc.alive = true)
    (hlooped : s.ledger.looped = true) {r : Nat × κ} (hr : s.ledger.readEnd = some r) :
    s.poll.entry_map.lookup r.1 = some r.2 := by
  refine (hs.entry hlooped r hr).resolve_right fun hdead => ?_
  cases halive.symm.trans hdead.1

/-- The read end stands for what it was opened for as long as the `Poll` is alive, or `loop` was not
    called. -/
theorem Sound.lookup_read [DecidableEq κ] (hs : Sound s)
    (halive : s.ledger.looped = true → s.pc.alive = true) {r : Nat × κ} (hr : s.read = some r) :
    s.poll.fds.lookup r.1 = some r.2 := by
  have ha := hs.accounts
  rw [hr] at ha
  refine ha.lookup_read fun hlooped => ?_
  have hentry := hs.lookup_entry (halive hlooped) hlooped (ha.pipe r rfl)
  exact List.mem_map_of_mem (List.mem_append_left _ (mem_pairs.mpr hentry))

/-- The write end is one of the holders. -/
theorem holders_write (hwrite : s.write = some fd) :
    s.holders.Perm (fd :: holders { s with write := none }) := by
  unfold holders
  rw [hwrite, ← List.append_assoc]
  exact List.perm_middle.trans (by rw [List.append_assoc]; rfl)

/-- The epoll descriptor is one of the holders. -/
theorem holders_epoll_handler (hepoll : s.epoll_handler = some fd) :
    s.holders.Perm (fd :: holders { s with epoll_handler := none }) := by
  unfold holders
  rw [hepoll, ← List.append_assoc, ← List.append_assoc]
  refine (List.perm_append_singleton _ _).trans ?_
  simp

/-- `Sound`, but for a descriptor whose holder is being destroyed: it is still accounted for, and is
    closed next. -/
structure Pending (s : PollLife κ) (fd : Nat × κ) : Prop where
  accounts : Accounts s.poll.fds s.read s.ledger (fd :: s.holders)
  entry : s.ledger.looped = true → ∀ r, s.ledger.readEnd = some r →
    s.poll.entry_map.lookup r.1 = some r.2 ∨
      (s.pc.alive = false ∧ (r.2 ∈ s.ledger.calls.map Call.owner ∨ r.2 = fd.2))
  staged : s.Staged
  cleared : s.pc.alive = false → s.pc ≠ .entry_map → s.poll.entry_map.entries = []

/-- **The end of a holder.**  A descriptor whose only holder is being destroyed is closed while it
    stands for what it was opened for, and no entry has its number. -/
theorem Pending.closeRaw (h : Pending s fd) : Sound (s.closeRaw fd) := by
  have hlookup := h.accounts.owns.lookup _ List.mem_cons_self
  have hlive : fd.1 ∉ s.poll.entry_map := by
    intro hmem
    obtain ⟨d, hd⟩ := Option.isSome_iff_exists.mp (AList.lookup_isSome.mpr hmem)
    exact h.accounts.owns.ne_of_mem (List.mem_append_left _ (mem_pairs.mpr hd)) rfl
  rw [closeRaw_eq hlookup hlive]
  refine ⟨h.accounts.close_fd, fun hlooped r hr => ?_, h.staged, h.cleared⟩
  refine (h.entry hlooped r hr).imp_right fun ⟨hdead, hcalled⟩ => ⟨hdead, ?_⟩
  simpa [Ledger.log] using hcalled

/-- `util::Close` finds the descriptor open, so it does the same. -/
theorem Pending.close (h : Pending s fd) : Sound (s.close fd) := by
  rw [close_eq (h.accounts.owns.lookup _ List.mem_cons_self)]
  exact h.closeRaw

/-! ### The steps -/

/-- An entry is erased; that of the terminator is only erased in the destructor. -/
theorem sound_erase (hs : Sound s) (hkey : s.ledger.looped = true →
    s.ledger.readEnd.map Prod.fst = some n → s.pc.alive = false) : Sound (s.erase n) := by
  unfold erase
  split
  · exact hs
  · rename_i c hc
    apply Pending.close
    refine ⟨hs.accounts.perm ((pairs_erase hc).append_right _), fun hlooped r hr => ?_, hs.staged,
      fun hdead hpc => ?_⟩
    · -- the entry of the terminator goes in the destructor only, and its `close` is recorded
      by_cases hn : r.1 = n
      · rw [hr] at hkey
        refine .inr ⟨hkey hlooped (congrArg some hn), ?_⟩
        refine (hs.entry hlooped r hr).elim (fun hentry => .inr ?_) fun hcalled => .inl hcalled.2
        rw [hn, hc] at hentry
        exact (Option.some.inj hentry).symm
      · refine (hs.entry hlooped r hr).imp (fun hentry => ?_) fun ⟨hdead, hcalled⟩ =>
          ⟨hdead, .inl hcalled⟩
        exact (AList.lookup_erase_ne hn).trans hentry
    · show s.poll.entry_map.entries.kerase n = []
      rw [hs.cleared hdead hpc]
      rfl

/-- What `remove(fd, &entry)` moves: the entry in the map is the caller's then, and the caller's old
    one is to be destroyed. -/
theorem holders_moveOut (s : PollLife κ) (n slot : Nat) :
    s.holders.Perm ((s.taken.lookup slot).toList ++ (s.moveOut n slot).holders) := by
  have hvalues : values (s.moveOut n slot).taken
      = ((s.poll.entry_map.lookup n).map (n, ·)).toList ++ values (s.taken.erase slot) := by
    unfold moveOut
    dsimp only
    split
    · rename_i hn
      rw [hn]
      rfl
    · rename_i c hn
      rw [hn, values_insert_erase]
      rfl
  -- each table is split at its key; what the map loses the caller has
  have hpairs := Multiset.coe_eq_coe.mpr (pairs_perm s.poll.entry_map n)
  have htaken := Multiset.coe_eq_coe.mpr (values_perm s.taken slot)
  unfold holders
  rw [← Multiset.coe_eq_coe, hvalues]
  simp only [← Multiset.coe_add] at hpairs htaken ⊢
  rw [hpairs, htaken]
  show _ = _ + ((pairs (s.poll.entry_map.erase n) : Multiset (Nat × κ)) +
    (_ + _ + (s.write.toList + s.epoll_handler.toList : Multiset (Nat × κ))))
  abel

/-- `remove(fd, &entry)` closes the caller's old entry, if there was one, and the entry of the map
    goes to the caller. -/
theorem sound_take (hs : Sound s) (halive : s.pc.alive = true) {slot : Nat}
    (hkey : s.ledger.looped = true → s.ledger.readEnd.map Prod.fst ≠ some n) :
    Sound (s.take n slot) := by
  have haccounts := hs.accounts.perm (holders_moveOut s n slot)
  have hentry : s.ledger.looped = true → ∀ r, s.ledger.readEnd = some r →
      (s.moveOut n slot).poll.entry_map.lookup r.1 = some r.2 := by
    intro hlooped r hr
    have hne : r.1 ≠ n := fun heq => hkey hlooped (by rw [hr, ← heq]; rfl)
    exact (AList.lookup_erase_ne hne).trans (hs.lookup_entry halive hlooped hr)
  have hcleared : s.pc.alive = false → s.pc ≠ .entry_map →
      (s.moveOut n slot).poll.entry_map.entries = [] := fun hdead => by
    cases halive.symm.trans hdead
  unfold take
  split
  · rename_i hslot
    rw [hslot] at haccounts
    exact ⟨haccounts, fun hlooped r hr => .inl (hentry hlooped r hr), hs.staged, hcleared⟩
  · rename_i old hslot
    rw [hslot] at haccounts
    apply Pending.close
    exact ⟨haccounts, fun hlooped r hr => .inl (hentry hlooped r hr), hs.staged, hcleared⟩

/-- A caller's entry closes its descriptor when it is destroyed. -/
theorem sound_destroyTaken (hs : Sound s) {slot : Nat} (hslot : s.taken.lookup slot = some fd) :
    Sound ({ s with taken := s.taken.erase slot }.close fd) := by
  apply Pending.close
  refine ⟨hs.accounts.perm ?_, fun hlooped r hr => ?_, hs.staged, hs.cleared⟩
  · refine (((values_erase hslot).append_right _).append_left _).trans ?_
    exact List.perm_middle
  · exact (hs.entry hlooped r hr).imp_right fun ⟨hdead, hcalled⟩ => ⟨hdead, .inl hcalled⟩

/-- A number that no holder has is not the key of an entry. -/
theorem lookup_none_of_holders (hne : ∀ x ∈ s.holders, x.1 ≠ n) :
    s.poll.entry_map.lookup n = none := by
  rw [Option.eq_none_iff_forall_ne_some]
  intro d hd
  exact hne (n, d) (List.mem_append_left _ (mem_pairs.mpr hd)) rfl

/-- An entry that is new in the map becomes a holder of its descriptor. -/
theorem sound_insert (hnew : s.poll.entry_map.lookup fd.1 = none)
    (ha : Accounts s.poll.fds s.read s.ledger (fd :: s.holders))
    (hentry : s.ledger.looped = true → ∀ r, s.ledger.readEnd = some r →
      s.poll.entry_map.lookup r.1 = some r.2 ∨ r = fd)
    (hstaged : s.Staged) (halive : s.pc.alive = true) : Sound (s.registerEntry fd) := by
  simp only [registerEntry, hnew]
  refine ⟨?_, fun hlooped r hr => .inl ?_, hstaged, fun hdead => ?_⟩
  · unfold holders
    rw [pairs_insert (not_mem_of_lookup hnew)]
    exact ha
  · rcases hentry hlooped r hr with hentry | rfl
    · refine (AList.lookup_insert_ne ?_).trans hentry
      intro heq
      rw [heq, hnew] at hentry
      cases hentry
    · exact AList.lookup_insert _
  · cases halive.symm.trans hdead

/-- A descriptor that the client opened is handed over.  No entry has its number, so none is
    replaced. -/
theorem sound_registerEntry [DecidableEq κ] (hs : Sound s) (halive : s.pc.alive = true)
    (hopen : s.poll.fds.lookup n = some c) (hc : c ∉ s.ledger.owned) :
    Sound ((s.own [c]).registerEntry (n, c)) := by
  have hnew : s.poll.entry_map.lookup n = none := by
    refine lookup_none_of_holders fun x hx heq => ?_
    have hlookup := hs.accounts.owns.lookup x hx
    rw [heq, hopen] at hlookup
    exact hc (Option.some.inj hlookup ▸ hs.accounts.holder_mem_owned hx)
  have ha := hs.accounts.own_fd hopen hc fun r hr => hs.lookup_read (fun _ => halive) hr
  refine sound_insert hnew ha (fun hlooped r hr => .inl ?_) hs.staged halive
  exact hs.lookup_entry halive hlooped hr

/-- **`loop` hands over the read end again**: it is in the pipe already, and now in an entry,
    too. -/
theorem sound_loop [DecidableEq κ] (hs : Sound s) (hpc : s.pc = .idle) :
    Sound (match s.read with
      | some fd => registerEntry
          { s with pc := .looping, ledger := { s.ledger with looped := true } } fd
      | none => { s with pc := .looping, ledger := { s.ledger with looped := true } }) := by
  obtain ⟨hlooped, hread⟩ := hs.stage hpc
  have ha := hs.accounts
  split
  · rename_i r hr
    rw [hr] at ha
    -- `loop` is called once, so there is no entry that the new one replaces
    have hnew : s.poll.entry_map.lookup r.1 = none := by
      have hheld := ha.read_not_held fun h => by cases hlooped.symm.trans h
      refine lookup_none_of_holders fun x hx heq => hheld ?_
      exact List.mem_map.mpr ⟨x, hx, (ha.readOnly r rfl x hx).mp heq⟩
    have ha' := ha.own_again hlooped
    rw [← hr] at ha'
    refine sound_insert hnew ha' (fun _ x hx => .inr ?_) hread rfl
    exact Option.some.inj (hx.symm.trans (hread.symm.trans hr))
  · rename_i hr
    have hnone : s.ledger.readEnd = none := hread.symm.trans hr
    refine ⟨ha.again_none hnone, fun _ x hx => ?_, hread, fun hdead => by cases hdead⟩
    cases hnone.symm.trans hx

/-- Another descriptor of the process is opened, under a number and a name that are free. -/
theorem sound_opened (hs : Sound s) (hfresh : s.Fresh fd) : Sound (s.opened fd) :=
  ⟨hs.accounts.open_fd (AList.lookup_eq_none.mpr hfresh.1) hfresh.2, hs.entry, hs.staged,
    hs.cleared⟩

/-- A descriptor that is not the `Poll`'s is closed by its owner. -/
theorem sound_shut (hs : Sound s) (hopen : s.poll.fds.lookup n = some c)
    (hc : c ∉ s.ledger.owned) : Sound { s with poll := s.poll.close n } := by
  rw [Poll.close_of_lookup hopen]
  exact ⟨hs.accounts.shut_fd hopen hc, hs.entry, hs.staged, hs.cleared⟩

/-- A name that is not in use is not the `Poll`'s. -/
theorem Sound.not_mem_owned (hs : Sound s) (hfresh : s.Fresh fd) : fd.2 ∉ s.ledger.owned :=
  fun hmem => hfresh.2 (hs.accounts.named _ hmem)

/-- A pipe that was never made has no read end. -/
theorem Sound.read_none (hs : Sound s) (h : s.ledger.readEnd = none) : s.read = none := by
  rw [Option.eq_none_iff_forall_ne_some]
  intro x hx
  rw [hs.accounts.pipe x hx] at h
  cases h

/-- **The constructor makes the pipe.**  Its write end becomes a holder; its read end is kept apart
    from the holders, since an entry will share it. -/
theorem sound_pipe2 {r w : Nat × κ} (hs : Sound s) (hpc : s.pc = .pipe2) (hr : s.Fresh r)
    (hw : (s.opened r).Fresh w) :
    Sound { ((s.opened r).opened w).own [r.2, w.2] with
      read := some r, write := some w, pc := .epoll_create1
      ledger := { (((s.opened r).opened w).own [r.2, w.2]).ledger with readEnd := some r } } := by
  obtain ⟨hlooped, hreadEnd, hwrite, hepoll⟩ := hs.stage hpc
  have hread := hs.read_none hreadEnd
  have hr' := hs.not_mem_owned hr
  have hw' : w.2 ∉ s.ledger.owned := (sound_opened hs hr).not_mem_owned hw
  have hname : w.2 ∉ r.2 :: s.ledger.named := hw.2
  have hnumber : w.1 ∉ s.poll.fds.insert r.1 r.2 := hw.1
  have ha := (sound_opened (sound_opened hs hr) hw).accounts
  have hopen : ((s.opened r).opened w).poll.fds.lookup w.1 = some w.2 := AList.lookup_insert _
  have hopen' : ((s.opened r).opened w).poll.fds.lookup r.1 = some r.2 := by
    have hne : r.1 ≠ w.1 := fun heq => hnumber (by rw [AList.mem_insert]; exact .inl heq.symm)
    exact (AList.lookup_insert_ne hne).trans (AList.lookup_insert _)
  rw [show ((s.opened r).opened w).read = none from hread] at ha
  -- the write end is a holder; the read end, which the entry of the terminator will share, is not
  have haw := ha.own_fd hopen hw' fun x hx => by cases hx
  have har := haw.own_read (r := r) hopen'
    (by
      rw [List.mem_cons, not_or]
      exact ⟨fun heq => hname (heq ▸ List.mem_cons_self), hr'⟩)
    hlooped
  refine ⟨har.perm ?_, fun h => ?_, ⟨hlooped, rfl, hepoll⟩, fun _ _ => ?_⟩
  · refine List.Perm.symm (.trans (holders_write rfl) (.cons _ (.of_eq ?_)))
    show holders { s with write := none } = s.holders
    unfold holders
    rw [hwrite]
  · cases hlooped.symm.trans h
  · exact hs.no_entry hpc rfl Pc.noConfusion

/-- The constructor opens the epoll descriptor, which the closure holds. -/
theorem sound_epoll_create1 [DecidableEq κ] (hs : Sound s) (hpc : s.pc = .epoll_create1)
    (hfresh : s.Fresh fd) :
    Sound { (s.opened fd).own [fd.2] with epoll_handler := some fd, pc := .idle } := by
  obtain ⟨hlooped, hread, hepoll⟩ := hs.stage hpc
  have hopened := sound_opened hs hfresh
  have ha := hopened.accounts.own_fd (AList.lookup_insert _) (hs.not_mem_owned hfresh)
    fun r hr => hopened.lookup_read (fun h => by cases hlooped.symm.trans h) hr
  refine ⟨ha.perm ?_, fun h => ?_, ⟨hlooped, hread⟩, fun hdead => by cases hdead⟩
  · refine List.Perm.symm (.trans (holders_epoll_handler rfl) (.cons _ (.of_eq ?_)))
    show holders { s with epoll_handler := none } = s.holders
    unfold holders
    rw [hepoll]
  · cases hlooped.symm.trans h

/-- The pipe closes its read end when the entries are gone; with a loop, the entry for it has closed
    it already. -/
theorem sound_closeReadEnd [DecidableEq κ] (hs : Sound s)
    (hempty : s.poll.entry_map.entries = []) (hread : s.read = some fd) :
    Sound ({ s with pc := .writeEnd, read := none }.closeRaw fd) := by
  have ha := hs.accounts
  rw [hread] at ha
  -- the entries are all gone, so the one for the read end has closed it if there was a loop
  have hlookup : ∀ n, s.poll.entry_map.lookup n = none := fun n => by
    rw [AList.lookup, hempty]
    rfl
  have hcalled : s.ledger.looped = true → fd.2 ∈ s.ledger.calls.map Call.owner := fun hlooped => by
    rcases hs.entry hlooped fd (ha.pipe fd rfl) with hentry | ⟨-, hcalled⟩
    · rw [hlookup] at hentry
      cases hentry
    · exact hcalled
  have hnew : Accounts (s.poll.close fd.1).fds none
      (s.ledger.log ⟨fd.2, s.poll.fds.lookup fd.1, false⟩) s.holders :=
    ha.close_read hcalled (fun m hm => Poll.lookup_close_ne hm)
      fun m d hd => Poll.lookup_of_lookup_close hd
  unfold closeRaw
  dsimp only
  rw [decide_eq_false (not_mem_of_lookup (hlookup fd.1))]
  refine ⟨?_, fun hlooped r hr => .inr ⟨rfl, ?_⟩, rfl, fun _ _ => ?_⟩
  · unfold holders
    dsimp only
    rw [Poll.entry_map_close]
    exact hnew
  · have hr : s.ledger.readEnd = some r := hr
    cases (ha.pipe fd rfl).symm.trans hr
    simp
  · dsimp only
    rw [Poll.entry_map_close]
    exact hempty

/-- The pipe closes its write end, which nobody else holds. -/
theorem sound_closeWriteEnd (hs : Sound s) (hpc : s.pc = .writeEnd) (hwrite : s.write = some fd) :
    Sound ({ s with pc := .cleanup, write := none }.closeRaw fd) := by
  apply Pending.closeRaw
  refine ⟨hs.accounts.perm (holders_write hwrite), fun hlooped r hr => ?_, ⟨hs.stage hpc, rfl⟩,
    fun _ _ => hs.no_entry hpc rfl Pc.noConfusion⟩
  exact (hs.entry hlooped r hr).imp_right fun ⟨_, hcalled⟩ => ⟨rfl, .inl hcalled⟩

/-- The closure closes the epoll descriptor, the last one that is left. -/
theorem sound_cleanup (hs : Sound s) (hpc : s.pc = .cleanup) (hepoll : s.epoll_handler = some fd) :
    Sound ({ s with pc := .gone, epoll_handler := none }.close fd) := by
  obtain ⟨hread, hwrite⟩ := hs.stage hpc
  apply Pending.close
  refine ⟨hs.accounts.perm (holders_epoll_handler hepoll), fun hlooped r hr => ?_,
    ⟨hread, hwrite, rfl⟩, fun _ _ => hs.no_entry hpc rfl Pc.noConfusion⟩
  exact (hs.entry hlooped r hr).imp_right fun ⟨_, hcalled⟩ => ⟨rfl, .inl hcalled⟩

/-- A step that only moves on. -/
theorem sound_pc (hs : Sound s) {pc : Pc} (hdead : s.pc.alive = false → pc.alive = false)
    (hstaged : Staged { s with pc := pc })
    (hcleared : pc.alive = false → pc ≠ .entry_map → s.poll.entry_map.entries = []) :
    Sound { s with pc := pc } :=
  ⟨hs.accounts, fun hlooped r hr => (hs.entry hlooped r hr).imp_right fun h => ⟨hdead h.1, h.2⟩,
    hstaged, hcleared⟩

/-- `pipe2` fails, and the `Poll` goes on without a pipe. -/
theorem sound_pipe2_failed (hs : Sound s) (hpc : s.pc = .pipe2) :
    Sound { s with pc := .epoll_create1 } := by
  obtain ⟨hlooped, hreadEnd, -, hepoll⟩ := hs.stage hpc
  have hread : s.read = s.ledger.readEnd := (hs.read_none hreadEnd).trans hreadEnd.symm
  exact sound_pc hs (fun _ => rfl) ⟨hlooped, hread, hepoll⟩
    fun _ _ => hs.no_entry hpc rfl Pc.noConfusion

/-- `epoll_create1` fails, and the `Poll` goes on without its descriptor. -/
theorem sound_epoll_create1_failed (hs : Sound s) (hpc : s.pc = .epoll_create1) :
    Sound { s with pc := .idle } := by
  obtain ⟨hlooped, hread, -⟩ := hs.stage hpc
  refine ⟨hs.accounts, fun h => ?_, ⟨hlooped, hread⟩, fun hdead => by cases hdead⟩
  cases hlooped.symm.trans h

/-- The destructor begins when the client lets the `Poll` go. -/
theorem sound_destroy (hs : Sound s) (hpc : s.pc = .idle ∨ s.pc = .returned) :
    Sound { s with pc := .entry_map } := by
  refine sound_pc hs (fun _ => rfl) ?_ fun _ hne => absurd rfl hne
  rcases hpc with hpc | hpc
  · exact (hs.stage hpc).2
  · have hread : s.read = s.ledger.readEnd := hs.stage hpc
    exact hread

/-- **Every step keeps the accounts**, as long as the client leaves the entry of the terminator
    alone. -/
theorem sound_step [DecidableEq κ] (a : Act κ) (hs : Sound s) (hprivate : Private s a)
    (hstep : step s a = some s') : Sound s' := by
  -- the argument for each act is in its lemma; here only the branch of the step is found
  cases a with
  | opened fd =>
    simp only [step] at hstep
    split_ifs at hstep with hfresh
    cases hstep
    exact sound_opened hs hfresh
  | shut n =>
    simp only [step] at hstep
    split at hstep
    · split_ifs at hstep with hc
      cases hstep
      exact sound_shut hs ‹_› hc
    · cases hstep
  | pipe2 ends =>
    rcases ends with _ | ⟨r, w⟩ <;> simp only [step] at hstep <;> split_ifs at hstep with hpc
    · cases hstep
      exact sound_pipe2_failed hs hpc
    · cases hstep
      exact sound_pipe2 hs hpc.1 hpc.2.1 hpc.2.2
  | epoll_create1 fd =>
    rcases fd with _ | fd <;> simp only [step] at hstep <;> split_ifs at hstep with hpc
    · cases hstep
      exact sound_epoll_create1_failed hs hpc
    · cases hstep
      exact sound_epoll_create1 hs hpc.1 hpc.2
  | registerEntry n =>
    simp only [step] at hstep
    split at hstep
    · split_ifs at hstep with h
      cases hstep
      exact sound_registerEntry hs h.1 ‹_› h.2
    · cases hstep
  | remove n =>
    simp only [step] at hstep
    split_ifs at hstep
    cases hstep
    exact sound_erase hs fun hlooped hn => absurd hn (hprivate hlooped n rfl)
  | take n slot =>
    simp only [step] at hstep
    split_ifs at hstep with halive
    cases hstep
    exact sound_take hs halive fun hlooped => hprivate hlooped n rfl
  | destroyTaken slot =>
    simp only [step] at hstep
    split at hstep
    · cases hstep
      exact sound_destroyTaken hs ‹_›
    · cases hstep
  | onClose n =>
    simp only [step] at hstep
    split_ifs at hstep
    cases hstep
    exact sound_erase hs fun hlooped hn => absurd hn (hprivate hlooped n rfl)
  | loop =>
    simp only [step] at hstep
    split_ifs at hstep with hpc
    have hloop := sound_loop hs hpc
    split at hstep <;> cases hstep <;> simpa [*] using hloop
  | quit =>
    simp only [step] at hstep
    split_ifs at hstep
    cases hstep
    exact ⟨hs.accounts, hs.entry, hs.staged, hs.cleared⟩
  | leave =>
    simp only [step] at hstep
    split at hstep
    · split_ifs at hstep with h
      cases hstep
      -- the loop is left: the read end is still there
      have hread : s.read = s.ledger.readEnd := hs.stage h.1
      refine sound_pc hs (fun hdead => ?_) hread fun hdead => by cases hdead
      rw [h.1] at hdead
      cases hdead
    · cases hstep
  | destroy =>
    simp only [step] at hstep
    split_ifs at hstep with hpc
    cases hstep
    exact sound_destroy hs hpc
  | destroyEntry n =>
    simp only [step] at hstep
    split_ifs at hstep with h
    cases hstep
    exact sound_erase hs fun _ _ => by rw [h.1]; rfl
  | closeReadEnd =>
    simp only [step] at hstep
    split_ifs at hstep with h
    split at hstep
    · cases hstep
      exact sound_closeReadEnd hs h.2 ‹_›
    -- there is no read end to close
    · rename_i hread
      cases hstep
      exact sound_pc hs (fun _ => rfl) hread fun _ _ => h.2
  | closeWriteEnd =>
    simp only [step] at hstep
    split_ifs at hstep with hpc
    split at hstep
    · cases hstep
      exact sound_closeWriteEnd hs hpc ‹_›
    · rename_i hwrite
      cases hstep
      exact sound_pc hs (fun _ => rfl) ⟨hs.stage hpc, hwrite⟩
        fun _ _ => hs.no_entry hpc rfl Pc.noConfusion
  | cleanup =>
    simp only [step] at hstep
    split_ifs at hstep with hpc
    split at hstep
    · cases hstep
      exact sound_cleanup hs hpc ‹_›
    · rename_i hepoll
      cases hstep
      obtain ⟨hread, hwrite⟩ := hs.stage hpc
      exact sound_pc hs (fun _ => rfl) ⟨hread, hwrite, hepoll⟩
        fun _ _ => hs.no_entry hpc rfl Pc.noConfusion

/-! ### What the operations do to the entries, and to `looped` -/

/-- On the tables `util::Close` is the `close` of `Poll`. -/
@[simp] theorem poll_close : (s.close fd).poll = s.poll.close fd.1 := by
  unfold close
  split_ifs with h
  · rfl
  · rw [Poll.close, AList.lookup_eq_none.mpr h]

/-- On the tables `erase` is the one of `Poll`. -/
theorem poll_erase : (s.erase n).poll = s.poll.erase n := by
  unfold erase Poll.erase
  split
  · rw [if_neg (not_mem_of_lookup ‹_›)]
  · rw [if_pos (mem_of_lookup ‹_›), poll_close]

/-- Closing a descriptor does not call `loop`. -/
@[simp] theorem looped_close : (s.close fd).ledger.looped = s.ledger.looped := by
  unfold close
  split_ifs <;> rfl

/-- Closing a descriptor does not move the `Poll` on. -/
@[simp] theorem pc_close : (s.close fd).pc = s.pc := by
  unfold close
  split_ifs <;> rfl

/-- Erasing an entry does not call `loop`. -/
@[simp] theorem looped_erase : (s.erase n).ledger.looped = s.ledger.looped := by
  unfold erase
  split
  · rfl
  · exact looped_close

/-- Erasing an entry does not move the `Poll` on. -/
@[simp] theorem pc_erase : (s.erase n).pc = s.pc := by
  unfold erase
  split
  · rfl
  · exact pc_close

/-- Taking an entry out does not call `loop`. -/
@[simp] theorem looped_take {slot : Nat} :
    (s.take n slot).ledger.looped = s.ledger.looped := by
  unfold take
  split
  · rfl
  · exact looped_close

/-- Registering an entry does not call `loop`. -/
@[simp] theorem looped_registerEntry :
    (s.registerEntry fd).ledger.looped = s.ledger.looped := by
  unfold registerEntry
  dsimp only
  split
  · rfl
  · exact looped_close

/-- `looped` records whether the step is `loop`. -/
theorem looped_step [DecidableEq κ] {a : Act κ} (hstep : step s a = some s') :
    s'.ledger.looped = (s.ledger.looped || decide (a = .loop)) := by
  unfold step at hstep
  split at hstep <;> (try split at hstep) <;> (try split at hstep) <;> cases hstep <;>
    simp [opened, own, closeRaw]

/-- `looped` records whether `loop` was called in the run. -/
theorem looped_exec [DecidableEq κ] {acts : List (Act κ)} (h : exec step s acts = some s') :
    s'.ledger.looped = (s.ledger.looped || decide (.loop ∈ acts)) := by
  induction acts generalizing s with
  | nil =>
    cases h
    simp
  | cons a acts ih =>
    obtain ⟨t, ht, hrest⟩ := exec_cons_eq_some.mp h
    rw [ih hrest, looped_step ht, Bool.or_assoc]
    simp [eq_comm]

/-- Without `loop` there is no entry of the terminator that the client could touch. -/
theorem along_private [DecidableEq κ] {acts : List (Act κ)} (hlooped : s.ledger.looped = false)
    (hloop : .loop ∉ acts) : Along step Private s acts := by
  induction acts generalizing s with
  | nil => exact trivial
  | cons a acts ih =>
    rw [List.mem_cons, not_or] at hloop
    refine along_cons.mpr ⟨fun h => ?_, fun t ht => ih ?_ hloop.2⟩
    · cases hlooped.symm.trans h
    · rw [looped_step ht, hlooped, decide_eq_false (Ne.symm hloop.1)]
      rfl

/-! ### The destructor ends -/

/-- `~Poll`. -/
def destructor (s : PollLife κ) : List (Act κ) :=
  .destroy :: (s.poll.entry_map.keys.map .destroyEntry
    ++ [.closeReadEnd, .closeWriteEnd, .cleanup])

/-- The destructor of the map destroys the entries one after another, and each of them closes its
    descriptor. -/
theorem exec_destroyEntry [DecidableEq κ] {keys : List Nat} (hpc : s.pc = .entry_map)
    (hkeys : s.poll.entry_map.keys = keys) :
    ∃ s', exec step s (keys.map .destroyEntry) = some s' ∧ s'.pc = .entry_map ∧
      s'.poll.entry_map.entries = [] := by
  induction keys generalizing s with
  | nil => exact ⟨s, rfl, hpc, List.map_eq_nil_iff.mp hkeys⟩
  | cons n keys ih =>
    have hmem : n ∈ s.poll.entry_map := by
      rw [AList.mem_keys, hkeys]
      exact List.mem_cons_self
    have hkeys' : (s.erase n).poll.entry_map.keys = keys := by
      rw [poll_erase, Poll.erase, if_pos hmem, Poll.entry_map_close, Poll.remove, AList.keys_erase,
        hkeys, List.erase_cons_head]
    obtain ⟨s', hexec, hrest⟩ := ih (pc_erase.trans hpc) hkeys'
    refine ⟨s', exec_cons_eq_some.mpr ⟨s.erase n, ?_, hexec⟩, hrest⟩
    exact if_pos ⟨hpc, hmem⟩

/-- Then the pipe and the closure close what they have, and nothing is left. -/
theorem exec_members [DecidableEq κ] (hpc : s.pc = .entry_map)
    (hempty : s.poll.entry_map.entries = []) :
    ∃ s', exec step s [.closeReadEnd, .closeWriteEnd, .cleanup] = some s' ∧ s'.pc = .gone := by
  obtain ⟨t, ht, htpc⟩ : ∃ t, step s .closeReadEnd = some t ∧ t.pc = .writeEnd := by
    simp only [step, hpc, hempty, and_self, if_true]
    split
    · exact ⟨_, rfl, rfl⟩
    · exact ⟨_, rfl, rfl⟩
  obtain ⟨u, hu, hupc⟩ : ∃ u, step t .closeWriteEnd = some u ∧ u.pc = .cleanup := by
    simp only [step, htpc, if_true]
    split
    · exact ⟨_, rfl, rfl⟩
    · exact ⟨_, rfl, rfl⟩
  obtain ⟨v, hv, hvpc⟩ : ∃ v, step u .cleanup = some v ∧ v.pc = .gone := by
    simp only [step, hupc, if_true]
    split
    · exact ⟨_, rfl, pc_close⟩
    · exact ⟨_, rfl, rfl⟩
  refine ⟨v, ?_, hvpc⟩
  simp [exec, ht, hu, hv]

/-- **The destructor comes to its end**, whatever entries there are: it destroys them one after
    another, and then closes what the pipe and the closure have. -/
theorem exec_destructor [DecidableEq κ] (hpc : s.pc = .idle ∨ s.pc = .returned) :
    ∃ s', exec step s (destructor s) = some s' ∧ s'.pc = .gone := by
  obtain ⟨t, ht, htpc, hempty⟩ := @exec_destroyEntry κ { s with pc := .entry_map } _ _ rfl rfl
  obtain ⟨s', hs', hgone⟩ := exec_members htpc hempty
  refine ⟨s', exec_cons_eq_some.mpr ⟨_, if_pos hpc, ?_⟩, hgone⟩
  exact exec_append_eq_some.mpr ⟨t, ht, hs'⟩

/-! ### Every descriptor is closed once -/

/-- The `Poll` and the entries taken from it are destroyed. -/
def Finished (s : PollLife κ) : Prop := s.pc = .gone ∧ s.taken.entries = []

/-- What the calls of `close` on behalf of `c` have hit. -/
def Ledger.closes [DecidableEq κ] (l : Ledger κ) (c : κ) : List (Option κ) :=
  (l.calls.filter (·.owner = c)).map Call.hit

/-- The calls of `close` for a descriptor, counted in the ledger. -/
theorem Ledger.length_closes [DecidableEq κ] (l : Ledger κ) (c : κ) :
    (l.closes c).length = (l.calls.map Call.owner).count c := by
  rw [closes, List.length_map, List.count, List.countP_map, List.countP_eq_length_filter]
  rfl

/-- When all holders are gone, every descriptor was closed, and the read end once more if `loop` was
    called. -/
theorem Sound.account_of_finished (hs : Sound s) (h : s.Finished) :
    (s.ledger.calls.map Call.owner).Perm (s.ledger.owned ++ s.ledger.again) := by
  obtain ⟨hread, hwrite, hepoll⟩ :
      s.read = none ∧ s.write = none ∧ s.epoll_handler = none := hs.stage h.1
  have hempty := hs.no_entry h.1 rfl Pc.noConfusion
  simpa [holders, pairs, values, hempty, h.2, hread, hwrite, hepoll] using hs.accounts.account

/-- A descriptor that was handed over once is closed once, while its number stands for it. -/
theorem Sound.closes_eq [DecidableEq κ] (hs : Sound s) (h : s.Finished) {c : κ}
    (hc : c ∈ s.ledger.owned) (hagain : c ∉ s.ledger.again) : s.ledger.closes c = [some c] := by
  have hcount := (hs.account_of_finished h).count_eq c
  rw [List.count_append, List.count_eq_one_of_mem hs.accounts.nodup hc,
    List.count_eq_zero.mpr hagain, ← Ledger.length_closes] at hcount
  refine List.eq_replicate_iff.mpr ⟨hcount, fun hit hmem => ?_⟩
  obtain ⟨k, hk, rfl⟩ := List.mem_map.mp hmem
  obtain ⟨hk, howner⟩ := List.mem_filter.mp hk
  rw [decide_eq_true_eq] at howner
  rcases hs.accounts.hit k hk with hhit | hmem
  · rw [hhit, howner]
  · exact absurd (howner ▸ hmem) hagain

/-- **A descriptor that was handed over twice** is closed twice, and one of the two calls does not
    meet it: by then its number is free, or stands for another descriptor. -/
theorem Sound.closes_again [DecidableEq κ] (hs : Sound s) (h : s.Finished) {c : κ}
    (hagain : s.ledger.again = [c]) :
    (s.ledger.closes c).length = 2 ∧ ∃ hit ∈ s.ledger.closes c, hit ≠ some c := by
  have hread : s.read = none := (hs.stage h.1).1
  have hmem : c ∈ s.ledger.again := by rw [hagain]; exact List.mem_singleton_self c
  obtain ⟨k, hk, howner, hhit⟩ := hs.accounts.twice hread c hmem
  have howned : c ∈ s.ledger.owned := by
    rw [← howner]
    exact hs.accounts.mem_owned
      (List.mem_append_right _ (List.mem_append_right _ (List.mem_map_of_mem hk)))
  refine ⟨?_, k.hit, List.mem_map_of_mem ?_, hhit⟩
  · rw [Ledger.length_closes, (hs.account_of_finished h).count_eq c, List.count_append,
      List.count_eq_one_of_mem hs.accounts.nodup howned, hagain, List.count_singleton_self]
  · simp [hk, howner]

/-- The destructor of a `Poll` always ends.  If `loop` was not called, every descriptor of it is
    closed once, and never while there is an entry for it.  If `loop` was called, the read end of
    the pipe is closed twice, once when its number does not stand for it any more; the other
    descriptors are closed once. -/
theorem poll_descriptors [DecidableEq κ] {acts : List (Act κ)} (h : exec step {} acts = some s) :
    (s.pc = .idle ∨ s.pc = .returned →
      ∃ s', exec step s (destructor s) = some s' ∧ s'.pc = .gone) ∧
    (.loop ∉ acts →
      (∀ k ∈ s.ledger.calls, k.live = false) ∧
      (s.Finished → ∀ c ∈ s.ledger.owned, s.ledger.closes c = [some c])) ∧
    (.loop ∈ acts → Along step Private {} acts →
      (∀ k ∈ s.ledger.calls, k.live = false) ∧
      (s.Finished →
        (∀ c ∈ s.ledger.owned, s.ledger.readEnd.map Prod.snd ≠ some c →
          s.ledger.closes c = [some c]) ∧
        ∀ r, s.ledger.readEnd = some r →
          (s.ledger.closes r.2).length = 2 ∧ ∃ hit ∈ s.ledger.closes r.2, hit ≠ some r.2)) := by
  have hlooped := looped_exec h
  -- without a loop every run is private
  have hsound : Along step Private {} acts → Sound s := fun hprivate =>
    exec_invariant_along (fun _ a _ hs hok => sound_step a hs hok) sound_init hprivate h
  refine ⟨exec_destructor, fun hloop => ?_, fun hloop hprivate => ?_⟩
  · have hs := hsound (along_private rfl hloop)
    rw [decide_eq_false hloop] at hlooped
    refine ⟨hs.accounts.live, fun hfinished c hc => hs.closes_eq hfinished hc ?_⟩
    rw [Ledger.again, hlooped]
    exact List.not_mem_nil
  · have hs := hsound hprivate
    rw [decide_eq_true hloop, Bool.or_true] at hlooped
    refine ⟨hs.accounts.live, fun hfinished => ⟨fun c hc hne => ?_, fun r hr => ?_⟩⟩
    -- only the read end is closed again
    · refine hs.closes_eq hfinished hc fun hmem => hne ?_
      rw [Ledger.again, if_pos hlooped, List.mem_map] at hmem
      obtain ⟨r, hr, rfl⟩ := hmem
      rw [Option.mem_toList.mp hr]
      rfl
    · refine hs.closes_again hfinished ?_
      rw [Ledger.again, if_pos hlooped, hr]
      rfl

/-- An entry is taken and outlives the `Poll`, and the number of another one is used again. -/
theorem poll_descriptors_taken : ∃ s : PollLife Nat,
    exec step {} [.pipe2 (some ((3, 0), (4, 1))), .epoll_create1 (some (5, 2)), .opened (6, 10),
      .registerEntry 6, .opened (7, 11), .registerEntry 7, .take 7 0, .remove 6, .opened (6, 12),
      .registerEntry 6, .destroy, .destroyEntry 6, .closeReadEnd, .closeWriteEnd, .cleanup,
      .destroyTaken 0] = some s ∧
    s.ledger.closes 0 = [some 0] ∧ s.ledger.closes 11 = [some 11] ∧
    s.ledger.closes 12 = [some 12] := by
  obtain ⟨s, hs, hp⟩ := exists_of_exec_any (p := fun s : PollLife Nat =>
    decide ((s.pc = .gone ∧ s.taken.entries = []) ∧ s.ledger.owned = [12, 11, 10, 2, 0, 1]))
    (show (exec step ({} : PollLife Nat) [.pipe2 (some ((3, 0), (4, 1))),
      .epoll_create1 (some (5, 2)), .opened (6, 10), .registerEntry 6, .opened (7, 11),
      .registerEntry 7, .take 7 0, .remove 6, .opened (6, 12), .registerEntry 6, .destroy,
      .destroyEntry 6, .closeReadEnd, .closeWriteEnd, .cleanup, .destroyTaken 0]).any _ = true by
      decide)
  obtain ⟨hfinished, howned⟩ := of_decide_eq_true hp
  have hcloses := ((poll_descriptors hs).2.1 (by simp)).2 hfinished
  rw [howned] at hcloses
  exact ⟨s, hs, hcloses 0 (by simp), hcloses 11 (by simp), hcloses 12 (by simp)⟩

/-- Another thread opens a descriptor between the two calls, gets the number of the read end, and
    loses its descriptor to the pipe. -/
theorem poll_descriptors_looped : ∃ s : PollLife Nat,
    exec step {} [.pipe2 (some ((3, 0), (4, 1))), .epoll_create1 (some (5, 2)), .loop, .quit,
      .leave, .destroy, .destroyEntry 3, .opened (3, 10), .closeReadEnd, .closeWriteEnd,
      .cleanup] = some s ∧
    s.Finished ∧ s.ledger.closes 0 = [some 0, some 10] ∧ 10 ∉ s.ledger.owned := by
  obtain ⟨s, hs, hp⟩ := exists_of_exec_any (p := fun s : PollLife Nat =>
    decide ((s.pc = .gone ∧ s.taken.entries = []) ∧ s.ledger.closes 0 = [some 0, some 10] ∧
      10 ∉ s.ledger.owned))
    (show (exec step ({} : PollLife Nat) [.pipe2 (some ((3, 0), (4, 1))),
      .epoll_create1 (some (5, 2)), .loop, .quit, .leave, .destroy, .destroyEntry 3,
      .opened (3, 10), .closeReadEnd, .closeWriteEnd, .cleanup]).any _ = true by decide)
  obtain ⟨hfinished, hcloses, hother⟩ := of_decide_eq_true hp
  exact ⟨s, hs, hfinished, hcloses, hother⟩

end PollLife

end CPlayground.Monitor
