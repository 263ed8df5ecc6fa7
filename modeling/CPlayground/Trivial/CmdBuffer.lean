import CPlayground.Lib.Cyclic
import CPlayground.Lib.Trace
import Mathlib.Data.List.Induction
import Mathlib.Data.List.Nodup

namespace CPlayground

open Cyclic

/-!
# `cmd-buffer.c`

`N` slots for commands, used in a circle by a writer and a reader.  An offer that meets the reader
moves it on by one slot, past the oldest command, but leaves that command where it is.

* `CmdBuffer.run` — the buffer after a sequence of calls, with the commands that `poll` has returned
  and that were passed to `destroy`.
* `CmdBuffer.owned_once` — every command is in one place.
* `Queue` — the buffer as a queue: the commands from the reader on, and the one that it was moved
  past.  A call on the buffer is a call on the queue (`Shows.step`) as long as no poll gets to the
  latter.
* `CmdBuffer.poll_order` — the commands come out in order exactly if that does not happen, that is,
  if no `N` polls in a row follow an offer that met the reader.
-/

/-- `struct cmd_buffer_t`, with `N` for `CMD_BUFFER_MAX_LEN`; `none` is the null pointer. -/
structure CmdBuffer (α : Type*) (N : Nat) where
  cmds : List (Option α)
  nr : Nat
  nw : Nat
  size : cmds.length = N
  nr_lt : nr < N
  nw_lt : nw < N

namespace CmdBuffer

variable {α : Type*} {N : Nat}

/-- `cmd_buffer_new`. -/
def new (h : 0 < N) : CmdBuffer α N := ⟨List.replicate N none, 0, 0, List.length_replicate, h, h⟩

/-- The reader after an offer that has moved the writer to `nw`. -/
def pushed (N nr nw : Nat) : Nat := if nr = nw then next N nr else nr

/-- The reader stays in the ring. -/
theorem pushed_lt {nr nw : Nat} (h : nr < N) : pushed N nr nw < N := by
  rw [pushed]
  split
  · exact next_lt h
  · exact h

/-- The buffer after `cmd_buffer_offer`. -/
def put (b : CmdBuffer α N) (cmd : α) : CmdBuffer α N where
  cmds := b.cmds.set b.nw (some cmd)
  nr := pushed N b.nr (next N b.nw)
  nw := next N b.nw
  size := List.length_set.trans b.size
  nr_lt := pushed_lt b.nr_lt
  nw_lt := next_lt b.nw_lt

/-- `cmd_buffer_offer`: the command that is passed to `destroy`, if that is given and the slot is
    not empty, and the buffer after it. -/
def offer (b : CmdBuffer α N) (cmd : α) (destroy : Bool) : Option α × CmdBuffer α N :=
  (if destroy then b.cmds.getD b.nw none else none, b.put cmd)

/-- The buffer after a `cmd_buffer_poll` that returns a command. -/
def take (b : CmdBuffer α N) : CmdBuffer α N where
  cmds := b.cmds.set b.nr none
  nr := next N b.nr
  nw := b.nw
  size := List.length_set.trans b.size
  nr_lt := next_lt b.nr_lt
  nw_lt := b.nw_lt

/-- `cmd_buffer_poll`: the command, if there is one, and the buffer after it. -/
def poll (b : CmdBuffer α N) : Option α × CmdBuffer α N :=
  match b.cmds.getD b.nr none with
  | none => (none, b)
  | some cmd => (some cmd, b.take)

/-- A call; `destroy` says whether the callback is given. -/
inductive Op (α : Type*)
  | offer (cmd : α) (destroy : Bool)
  | poll

/-- The buffer and what has happened to commands that were in it. -/
structure Log (α : Type*) (N : Nat) where
  buffer : CmdBuffer α N
  returned : List α
  destroyed : List α

/-- One call. -/
def Log.step (l : Log α N) : Op α → Log α N
  | .offer cmd destroy =>
      { l with
        buffer := (l.buffer.offer cmd destroy).2
        destroyed := l.destroyed ++ (l.buffer.offer cmd destroy).1.toList }
  | .poll =>
      { l with
        buffer := l.buffer.poll.2
        returned := l.returned ++ l.buffer.poll.1.toList }

/-- The calls, one after another, on a new buffer. -/
def run (h : 0 < N) (ops : List (Op α)) : Log α N := ops.foldl Log.step ⟨new h, [], []⟩

/-- The commands offered, in this order. -/
def offered (ops : List (Op α)) : List α :=
  ops.filterMap fun
    | .offer cmd _ => some cmd
    | .poll => none

variable {h : 0 < N} {ops : List (Op α)} {op : Op α} {b : CmdBuffer α N}

/-- One call after the others. -/
theorem run_concat (ops : List (Op α)) (op : Op α) :
    run h (ops ++ [op]) = (run h ops).step op := List.foldl_concat _ _ _ _

/-- The offers of two sequences of calls. -/
theorem offered_append (ops ops' : List (Op α)) :
    offered (ops ++ ops') = offered ops ++ offered ops' := List.filterMap_append

/-- A slot that is in the ring. -/
theorem slot_eq {i : Nat} (hi : i < N) (b : CmdBuffer α N) :
    b.cmds[i]? = some (b.cmds.getD i none) := by
  have hlt : i < b.cmds.length := by rw [b.size]; exact hi
  rw [List.getD_eq_getElem?_getD, List.getElem?_eq_getElem hlt]
  rfl

/-! ### Ownership -/

section Ownership

variable [DecidableEq α]

/-- Writing one slot exchanges what is in it: the commands of the buffer get the new one, and lose
    the old one. -/
theorem count_set {cmds : List (Option α)} {i : Nat} (hi : i < cmds.length) (x : Option α)
    (c : α) :
    (cmds.set i x).count (some c) + (cmds.getD i none).toList.count c
      = cmds.count (some c) + x.toList.count c := by
  have hone : ∀ y : Option α, [y].count (some c) = y.toList.count c := by
    intro y
    cases y with
    | none => rfl
    | some d => simp [List.count_singleton]
  obtain ⟨l₁, l₂, hcmds, -, hset⟩ : ∃ l₁ l₂, cmds = l₁ ++ cmds[i] :: l₂ ∧ l₁.length = i ∧
      cmds.set i x = l₁ ++ x :: l₂ := List.exists_of_set hi
  have hold : cmds.getD i none = cmds[i] := by
    rw [List.getD_eq_getElem?_getD, List.getElem?_eq_getElem hi, Option.getD_some]
  rw [hset, hold, ← hone, ← hone]
  conv_rhs => rw [hcmds]
  simp only [List.count_append, List.count_cons, List.count_nil]
  omega

/-- Every command that was offered is stored, returned or destroyed, as often as it was offered. -/
def Conserved (offers : List α) (l : Log α N) : Prop :=
  ∀ c, l.buffer.cmds.count (some c) + l.returned.count c + l.destroyed.count c = offers.count c

/-- An offer with `destroy` passes the command in its slot to it, so that nothing gets lost. -/
theorem Conserved.offer {offers : List α} {l : Log α N} (hl : Conserved offers l) (cmd : α) :
    Conserved (offers ++ [cmd]) (l.step (.offer cmd true)) := by
  intro c
  have hset := count_set (i := l.buffer.nw) (by rw [l.buffer.size]; exact l.buffer.nw_lt)
    (some cmd) c
  have hold := hl c
  simp only [Log.step, CmdBuffer.offer, put, if_true, List.count_append]
  rw [Option.toList_some] at hset
  omega

/-- A poll moves a command from its slot to the caller. -/
theorem Conserved.poll {offers : List α} {l : Log α N} (hl : Conserved offers l) :
    Conserved offers (l.step .poll) := by
  intro c
  have hset := count_set (i := l.buffer.nr) (by rw [l.buffer.size]; exact l.buffer.nr_lt) none c
  have hold := hl c
  simp only [Log.step, CmdBuffer.poll, List.count_append]
  cases hslot : l.buffer.cmds.getD l.buffer.nr none with
  | none => exact hold
  | some d =>
    rw [hslot] at hset
    simp only [take]
    simp only [Option.toList_some, Option.toList_none, List.count_nil] at hset ⊢
    omega

/-- **Nothing is lost and nothing is copied**, in every sequence of calls: a command is in the
    buffer, was returned, or was destroyed. -/
theorem conserved_run (hall : ∀ cmd destroy, Op.offer cmd destroy ∈ ops → destroy = true) :
    Conserved (offered ops) (run h ops) := by
  induction ops using List.reverseRecOn with
  | nil =>
    intro c
    simp [run, new, offered, List.count_replicate]
  | append_singleton ops op ih =>
    have hops := ih fun cmd destroy hmem => hall cmd destroy (List.mem_append_left _ hmem)
    rw [run_concat, offered_append]
    cases op with
    | offer cmd destroy =>
      obtain rfl := hall cmd destroy (List.mem_append_right _ (List.mem_singleton_self _))
      exact hops.offer cmd
    | poll =>
      rw [show offered [Op.poll] = ([] : List α) from rfl, List.append_nil]
      exact hops.poll

/-- **Ownership.**  Every command that was offered is in one slot, or was returned once, or was
    passed to `destroy` once, and only one of these. -/
theorem owned_once (h : 0 < N) (ops : List (Op α))
    (hall : ∀ cmd destroy, Op.offer cmd destroy ∈ ops → destroy = true)
    (hdistinct : (offered ops).Nodup) (c : α) (hc : c ∈ offered ops) :
    ((run h ops).buffer.cmds.count (some c), (run h ops).returned.count c,
      (run h ops).destroyed.count c) ∈ [(1, 0, 0), (0, 1, 0), (0, 0, 1)] := by
  have hsum := conserved_run (h := h) hall c
  rw [List.count_eq_one_of_mem hdistinct hc] at hsum
  simp only [List.mem_cons, Prod.mk.injEq, List.not_mem_nil, or_false]
  omega

/-- Four commands for two slots, the first of which is polled. -/
def pollThenOffers : List (Op Nat) :=
  [.offer 1 true, .poll, .offer 2 true, .offer 3 true, .offer 4 true]

/-- The first command was returned, the second one passed to `destroy`, and the others are in the
    slots. -/
theorem owned_once_two :
    (∀ c ∈ offered pollThenOffers,
      ((run (N := 2) (by decide) pollThenOffers).buffer.cmds.count (some c),
        (run (N := 2) (by decide) pollThenOffers).returned.count c,
        (run (N := 2) (by decide) pollThenOffers).destroyed.count c)
          ∈ [(1, 0, 0), (0, 1, 0), (0, 0, 1)]) ∧
    (run (N := 2) (by decide) pollThenOffers).returned = [1] ∧
    (run (N := 2) (by decide) pollThenOffers).destroyed = [2] ∧
    (run (N := 2) (by decide) pollThenOffers).buffer.cmds = [some 3, some 4] := by
  refine ⟨fun c hc => ?_, by decide, by decide, by decide⟩
  refine owned_once (by decide) pollThenOffers ?_ (by decide) c hc
  intro cmd destroy hmem
  simp only [pollThenOffers, List.mem_cons, Op.offer.injEq, reduceCtorEq, List.not_mem_nil,
    false_or, or_false] at hmem
  rcases hmem with ⟨-, h⟩ | ⟨-, h⟩ | ⟨-, h⟩ | ⟨-, h⟩ <;> exact h

end Ownership

/-! ### The buffer as a queue -/

/-- The commands from the reader on, the one that the reader was moved past, and those that were
    returned. -/
structure Queue (α : Type*) where
  live : List α
  stale : Option α
  returned : List α

namespace Queue

/-- An offer.  With `N` commands the oldest one is passed over; the next offer replaces it. -/
def offer (N : Nat) (q : Queue α) (cmd : α) : Queue α :=
  if q.live.length + 1 = N then
    { q with live := (q.live ++ [cmd]).tail, stale := (q.live ++ [cmd]).head? }
  else { q with live := q.live ++ [cmd], stale := none }

/-- A poll; `none` if the command that was passed over is next. -/
def poll (q : Queue α) : Option (Queue α) :=
  match q.live, q.stale with
  | cmd :: live, _ => some { q with live, returned := q.returned ++ [cmd] }
  | [], none => some q
  | [], some _ => none

/-- One call. -/
def step (N : Nat) (q : Queue α) : Op α → Option (Queue α)
  | .offer cmd _ => some (q.offer N cmd)
  | .poll => q.poll

/-- The only call that is not possible. -/
theorem step_eq_none {q : Queue α} {op : Op α} (hstep : q.step N op = none) :
    op = .poll ∧ q.live = [] ∧ ∃ s, q.stale = some s := by
  obtain ⟨live, stale, returned⟩ := q
  cases op with
  | offer cmd destroy => exact absurd hstep (by simp [step])
  | poll =>
    match live, stale with
    | _ :: _, _ => exact absurd hstep (by simp [step, poll])
    | [], none => exact absurd hstep (by simp [step, poll])
    | [], some s => exact ⟨rfl, rfl, s, rfl⟩

/-- An offer to a full queue passes the oldest command over. -/
theorem offer_full {q : Queue α} (hfull : q.live.length + 1 = N) (cmd : α) :
    ∃ old rest, q.live ++ [cmd] = old :: rest ∧ rest.length = q.live.length ∧
      q.offer N cmd = ⟨rest, some old, q.returned⟩ := by
  obtain ⟨old, rest, hrest⟩ : ∃ old rest, q.live ++ [cmd] = old :: rest :=
    List.exists_cons_of_ne_nil (by simp)
  refine ⟨old, rest, hrest, ?_, ?_⟩
  · have hlength := congrArg List.length hrest
    simp only [List.length_append, List.length_cons, List.length_nil] at hlength
    omega
  · rw [offer, if_pos hfull, hrest]
    rfl

/-- What is in the slot that is `i` slots behind the reader. -/
def content (q : Queue α) (i : Nat) : Option α := if i = q.live.length then q.stale else q.live[i]?

end Queue

variable {q q' : Queue α} {cmd : α}

/-- The slots of the buffer hold the queue, from the reader on: the commands that are left, and in
    the last slot the one that the reader was moved past. -/
structure Shows (b : CmdBuffer α N) (q : Queue α) : Prop where
  length : q.live.length < N
  nw : b.nw = (b.nr + q.live.length) % N
  slots : ∀ i < N, b.cmds[(b.nr + i) % N]? = some (q.content i)

/-- A new buffer is an empty queue. -/
theorem shows_new (h : 0 < N) : Shows (new h : CmdBuffer α N) ⟨[], none, []⟩ := by
  refine ⟨h, (Nat.zero_mod N).symm, ?_⟩
  intro i hi
  have hcontent : Queue.content (⟨[], none, []⟩ : Queue α) i = none := by simp [Queue.content]
  rw [hcontent]
  show (List.replicate N none)[(0 + i) % N]? = _
  rw [List.getElem?_replicate, if_pos (Nat.mod_lt _ h)]

/-- The slots after an offer, seen from where the reader was before it: the command is in the one
    that the writer stood at. -/
theorem Shows.put_slots (hb : Shows b q) (cmd : α) {i : Nat} (hi : i < N) :
    (b.put cmd).cmds[(b.nr + i) % N]? = some ((q.live ++ [cmd])[i]?) := by
  show (b.cmds.set b.nw (some cmd))[(b.nr + i) % N]? = _
  rcases Nat.lt_trichotomy i q.live.length with hlt | rfl | hgt
  · have hne : b.nw ≠ (b.nr + i) % N := by
      rw [hb.nw]
      exact (mod_ne (by omega) (by have := hb.length; omega)).symm
    rw [List.getElem?_set_ne hne, hb.slots i hi, Queue.content, if_neg (by omega),
      List.getElem?_append_left hlt]
  · rw [← hb.nw, List.getElem?_set_self (by rw [b.size]; exact b.nw_lt),
      List.getElem?_concat_length]
  · have hne : b.nw ≠ (b.nr + i) % N := by
      rw [hb.nw]
      exact mod_ne (by omega) (by omega)
    rw [List.getElem?_set_ne hne, hb.slots i hi, Queue.content, if_neg (by omega),
      List.getElem?_eq_none (by omega), List.getElem?_eq_none (by simp; omega)]

/-- **An offer on the buffer is one on the queue**: the oldest command falls out of the window when
    the writer meets the reader. -/
theorem Shows.put (hb : Shows b q) (cmd : α) : Shows (b.put cmd) (q.offer N cmd) := by
  have hlen := hb.length
  have hnr : b.nr % N = b.nr := Nat.mod_eq_of_lt b.nr_lt
  have hN : 0 < N := by omega
  have hnw : (b.put cmd).nw = (b.nr + q.live.length + 1) % N := by
    show next N b.nw = _
    rw [hb.nw, next_mod hN]
  by_cases hfull : q.live.length + 1 = N
  · -- the writer has met the reader
    have hmeet : next N b.nw = b.nr := by
      rw [← hnr]
      show (b.put cmd).nw = _
      rw [hnw, Nat.add_assoc, hfull, Nat.add_mod_right]
    have hreader : (b.put cmd).nr = (b.nr + 1) % N := by
      show pushed N b.nr (next N b.nw) = _
      rw [pushed, hmeet, if_pos rfl, next_eq b.nr_lt]
    have hoffer : q.offer N cmd = ⟨(q.live ++ [cmd]).tail, (q.live ++ [cmd]).head?, q.returned⟩ :=
      if_pos hfull
    have htail : (q.live ++ [cmd]).tail.length = q.live.length := by simp
    rw [hoffer]
    refine ⟨by rw [htail]; exact hlen, ?_, ?_⟩
    · rw [hnw, hreader, htail, Nat.mod_add_mod]
      congr 1
      omega
    · intro i hi
      rw [hreader, Nat.mod_add_mod, Nat.add_assoc, Nat.add_comm 1 i, Queue.content, htail]
      by_cases hlast : i = q.live.length
      · rw [if_pos hlast, hlast, hfull, Nat.add_mod_right, ← Nat.add_zero b.nr,
          hb.put_slots cmd hN, List.head?_eq_getElem?]
      · rw [if_neg hlast, hb.put_slots cmd (by omega), List.getElem?_tail]
  · have hroom : next N b.nw ≠ b.nr := by
      rw [← hnr]
      show (b.put cmd).nw ≠ _
      rw [hnw]
      exact (mod_ne (by omega) (by omega)).symm
    have hreader : (b.put cmd).nr = b.nr := if_neg hroom.symm
    have hoffer : q.offer N cmd = ⟨q.live ++ [cmd], none, q.returned⟩ := if_neg hfull
    have hlength : (q.live ++ [cmd]).length = q.live.length + 1 := by simp
    rw [hoffer]
    refine ⟨by rw [hlength]; omega, ?_, ?_⟩
    · rw [hnw, hreader, hlength, Nat.add_assoc]
    · intro i hi
      rw [hreader, hb.put_slots cmd hi, Queue.content]
      split
      case isTrue heq => exact congrArg some (List.getElem?_eq_none (Nat.le_of_eq heq.symm))
      case isFalse => rfl

/-- The slot of the reader. -/
theorem Shows.getD_nr (hb : Shows b q) : b.cmds.getD b.nr none = q.content 0 := by
  have hzero := hb.slots 0 (by have := hb.length; omega)
  rw [Nat.add_zero, Nat.mod_eq_of_lt b.nr_lt, slot_eq b.nr_lt] at hzero
  exact Option.some.inj hzero

/-- A poll on the buffer takes the first command of the queue, and the reader moves on to the next
    one. -/
theorem Shows.take {live : List α} {stale : Option α} {returned returned' : List α}
    (hb : Shows b ⟨cmd :: live, stale, returned⟩) : Shows b.take ⟨live, stale, returned'⟩ := by
  have hlen : live.length + 1 < N := hb.length
  have hreader : b.take.nr = (b.nr + 1) % N := next_eq b.nr_lt
  refine ⟨by show live.length < N; omega, ?_, ?_⟩
  · show b.nw = _
    rw [hb.nw, hreader, Nat.mod_add_mod, Nat.add_assoc, Nat.add_comm 1]
    rfl
  · intro i hi
    rw [hreader, Nat.mod_add_mod, Nat.add_assoc, Nat.add_comm 1 i]
    show (b.cmds.set b.nr none)[(b.nr + (i + 1)) % N]? = _
    by_cases hlast : i + 1 = N
    · -- the slot that was emptied is behind all the others now
      rw [hlast, Nat.add_mod_right, Nat.mod_eq_of_lt b.nr_lt,
        List.getElem?_set_self (by rw [b.size]; exact b.nr_lt), Queue.content,
        if_neg (by show i ≠ live.length; omega),
        List.getElem?_eq_none (by show live.length ≤ i; omega)]
    · have hne : b.nr ≠ (b.nr + (i + 1)) % N := by
        have hmod := mod_ne (m := b.nr) (n := b.nr + (i + 1)) (N := N) (by omega) (by omega)
        rwa [Nat.mod_eq_of_lt b.nr_lt] at hmod
      rw [List.getElem?_set_ne hne, hb.slots (i + 1) (by omega)]
      simp [Queue.content]

/-- **One call on the queue** is a call on the buffer, with the same command returned; only a poll
    that gets to the command that was passed over has no counterpart. -/
theorem Shows.step {l : Log α N} (hb : Shows l.buffer q) (hreturned : l.returned = q.returned)
    (hstep : q.step N op = some q') :
    Shows (l.step op).buffer q' ∧ (l.step op).returned = q'.returned := by
  obtain ⟨live, stale, returned⟩ := q
  cases op with
  | offer cmd destroy =>
    obtain rfl := Option.some.inj hstep
    refine ⟨hb.put cmd, ?_⟩
    rw [show (l.step (.offer cmd destroy)).returned = l.returned from rfl, hreturned, Queue.offer]
    split <;> rfl
  | poll =>
    -- the reader stands at the oldest command, or at the slot of the one it was moved past
    have hslot := hb.getD_nr
    cases live with
    | cons cmd live =>
      obtain rfl := Option.some.inj hstep
      have hpoll : l.buffer.poll = (some cmd, l.buffer.take) := by
        rw [CmdBuffer.poll, hslot]
        rfl
      simp only [Log.step, hpoll, hreturned]
      exact ⟨hb.take, rfl⟩
    | nil =>
      cases stale with
      | none =>
        obtain rfl := Option.some.inj hstep
        have hpoll : l.buffer.poll = (none, l.buffer) := by
          rw [CmdBuffer.poll, hslot]
          rfl
        simp only [Log.step, hpoll, hreturned]
        exact ⟨hb, List.append_nil _⟩
      -- the run of the queue ends here: the buffer would return a command again
      | some cmd => exact absurd hstep (by simp [Queue.step, Queue.poll])

/-! ### The order of the commands -/

/-- How many commands are waiting after the calls, if the reader never gets to one that it was moved
    past. -/
def level (N : Nat) (ops : List (Op α)) : Nat :=
  ops.foldl (fun l op => match op with
    | .offer _ _ => if l + 1 = N then l else l + 1
    | .poll => l - 1) 0

/-- `N` polls in a row come after an offer for which there was no room. -/
def Overtaken (N : Nat) (ops : List (Op α)) : Prop :=
  ∃ before cmd destroy after, level N before + 1 = N ∧
    ops = before ++ .offer cmd destroy :: (List.replicate N .poll ++ after)

/-- What holds for the queue after the calls `ops`. -/
structure Reached (N : Nat) (ops : List (Op α)) (q : Queue α) : Prop where
  level : q.live.length = level N ops
  order : (q.returned ++ q.live).Sublist (offered ops)
  /-- The command that was passed over is older than the `N - 1` last ones. -/
  stale : ∀ s, q.stale = some s → ∃ before cmd destroy polls newer,
    CmdBuffer.level N before + 1 = N ∧
    ops = before ++ .offer cmd destroy :: List.replicate polls .poll ∧
    q.live.length + polls + 1 = N ∧ newer.length + 1 = N ∧
    newer <:+ q.returned ++ q.live ∧ (s :: newer).Sublist (offered ops)

/-- The queue after an offer, seen from the sequence of calls: with a full buffer the oldest command
    becomes the stale one. -/
theorem Reached.offer (hq : Reached N ops q) (cmd : α) (destroy : Bool) :
    Reached N (ops ++ [.offer cmd destroy]) (q.offer N cmd) := by
  have hlevel : CmdBuffer.level N (ops ++ [.offer cmd destroy])
      = if q.live.length + 1 = N then q.live.length else q.live.length + 1 := by
    rw [hq.level, CmdBuffer.level, List.foldl_concat]
    rfl
  have horder :
      (q.returned ++ (q.live ++ [cmd])).Sublist (offered (ops ++ [.offer cmd destroy])) := by
    rw [offered_append, ← List.append_assoc]
    exact hq.order.append (List.Sublist.refl _)
  -- an offer that meets the reader moves it past the oldest command, which stays in its slot
  by_cases hfull : q.live.length + 1 = N
  · obtain ⟨old, rest, hrest, hlength, hoffer⟩ := Queue.offer_full hfull cmd
    rw [hrest] at horder
    rw [if_pos hfull, ← hlength] at hlevel
    have hfull' : rest.length + 1 = N := by rw [hlength, hfull]
    rw [hoffer]
    refine ⟨hlevel.symm, ((List.sublist_cons_self old rest).append_left _).trans horder, ?_⟩
    rintro s ⟨⟩
    refine ⟨ops, cmd, destroy, 0, rest, by rw [← hq.level, hfull], rfl, hfull', hfull',
      List.suffix_append _ _, ?_⟩
    exact (List.sublist_append_right _ _).trans horder
  · rw [if_neg hfull] at hlevel
    rw [Queue.offer, if_neg hfull]
    refine ⟨by rw [hlevel]; simp, horder, ?_⟩
    rintro s ⟨⟩

/-- The queue after a poll that is possible: a command less, if there is one, and one poll more
    behind the offer that met the reader. -/
theorem Reached.poll (hq : Reached N ops q) (hpoll : q.poll = some q') :
    Reached N (ops ++ [.poll]) q' := by
  have hlevel : CmdBuffer.level N (ops ++ [.poll]) = q.live.length - 1 := by
    rw [hq.level, CmdBuffer.level, List.foldl_concat]
    rfl
  have hoffered : offered (ops ++ [.poll]) = offered ops := by
    rw [offered_append]
    exact List.append_nil _
  obtain ⟨live, stale, returned⟩ := q
  cases live with
  | nil =>
    cases stale with
    | none =>
      obtain rfl := Option.some.inj hpoll
      exact ⟨hlevel.symm, hoffered ▸ hq.order, by rintro s ⟨⟩⟩
    | some s => exact absurd hpoll (by simp [Queue.poll])
  | cons cmd live =>
    obtain rfl := Option.some.inj hpoll
    have hsame : returned ++ [cmd] ++ live = returned ++ cmd :: live := by simp
    refine ⟨hlevel.symm, ?_, ?_⟩
    · rw [hoffered, hsame]
      exact hq.order
    -- one poll more behind the offer that met the reader
    · intro s hs
      obtain ⟨before, c, destroy, polls, newer, hfull, hops, hlen, hnewer, hsuffix, hsub⟩ :=
        hq.stale s hs
      refine ⟨before, c, destroy, polls + 1, newer, hfull, ?_, ?_, hnewer, ?_, ?_⟩
      · rw [hops, List.append_assoc, List.cons_append, ← List.replicate_succ']
      · simp at hlen ⊢
        omega
      · rw [hsame]
        exact hsuffix
      · rw [hoffered]
        exact hsub

/-- The calls on an empty queue. -/
def Queue.run (N : Nat) (ops : List (Op α)) : Option (Queue α) :=
  Trace.exec (Queue.step N) ⟨[], none, []⟩ ops

/-- **The queue and the buffer after the same calls** show the same, as long as the queue has a
    run. -/
theorem reached_run (h : 0 < N) (hrun : Queue.run N ops = some q) :
    Reached N ops q ∧ Shows (run h ops).buffer q ∧ (run h ops).returned = q.returned := by
  induction ops using List.reverseRecOn generalizing q with
  | nil =>
    obtain rfl := Option.some.inj hrun
    exact ⟨⟨rfl, List.Sublist.refl _, by rintro s ⟨⟩⟩, shows_new h, rfl⟩
  | append_singleton ops op ih =>
    obtain ⟨q₁, hq₁, hop⟩ := Trace.exec_append_eq_some.mp hrun
    obtain ⟨q₂, hstep, hq₂⟩ := Trace.exec_cons_eq_some.mp hop
    obtain rfl := Option.some.inj hq₂
    obtain ⟨hreached, hshows, hreturned⟩ := ih hq₁
    rw [run_concat]
    refine ⟨?_, hshows.step hreturned hstep⟩
    cases op with
    | offer cmd destroy =>
      obtain rfl := Option.some.inj hstep
      exact hreached.offer cmd destroy
    | poll => exact hreached.poll hstep

/-- A queue whose reader was moved past a command lets only the others be polled. -/
theorem Queue.polls_le {polls : Nat} {s : α} (hstale : q.stale = some s)
    (hexec : Trace.exec (Queue.step N) q (List.replicate polls .poll) = some q') :
    polls ≤ q.live.length := by
  induction polls generalizing q with
  | zero => exact Nat.zero_le _
  | succ polls ih =>
    rw [List.replicate_succ] at hexec
    obtain ⟨q₁, hpoll, hexec⟩ := Trace.exec_cons_eq_some.mp hexec
    obtain ⟨live, stale, returned⟩ := q
    obtain rfl : stale = some s := hstale
    cases live with
    | nil => exact absurd hpoll (by simp [Queue.step, Queue.poll])
    | cons cmd live =>
      obtain rfl := Option.some.inj hpoll
      exact Nat.succ_le_succ (ih rfl hexec)

/-- The calls that bring the reader to a command that it was moved past: an offer without room, and
    as many polls as there are slots. -/
theorem queue_run_eq_none (h : 0 < N) : Queue.run N ops = none ↔ Overtaken N ops := by
  constructor
  · intro hnone
    obtain ⟨before, op, after, q, rfl, hq, hop⟩ := Trace.exists_of_exec_eq_none hnone
    obtain ⟨rfl, hlive, s, hs⟩ := Queue.step_eq_none hop
    obtain ⟨pre, cmd, destroy, polls, -, hfull, rfl, hlen, -⟩ := (reached_run h hq).1.stale s hs
    obtain rfl : polls + 1 = N := by rw [← hlen, hlive, List.length_nil, Nat.zero_add]
    refine ⟨pre, cmd, destroy, after, hfull, ?_⟩
    rw [List.replicate_succ', List.append_assoc, List.cons_append, List.append_assoc]
    rfl
  · rintro ⟨before, cmd, destroy, after, hfull, rfl⟩
    cases hrun :
      Queue.run N (before ++ .offer cmd destroy :: (List.replicate N .poll ++ after)) with
    | none => rfl
    | some q =>
      obtain ⟨q₁, hq₁, hrest⟩ := Trace.exec_append_eq_some.mp hrun
      obtain ⟨q₂, hoffer, hpolls⟩ := Trace.exec_cons_eq_some.mp hrest
      obtain ⟨q₃, hq₃, -⟩ := Trace.exec_append_eq_some.mp hpolls
      obtain rfl := Option.some.inj hoffer
      have hlive : q₁.live.length + 1 = N := by rw [(reached_run h hq₁).1.level, hfull]
      obtain ⟨old, rest, -, hlength, hq₂⟩ := Queue.offer_full hlive cmd
      rw [hq₂] at hq₃
      have hle : N ≤ rest.length := Queue.polls_le rfl hq₃
      omega

/-- Two commands cannot be offered in both orders, as each of them is offered once. -/
theorem not_sublist_swap {l : List α} {x y : α} (hl : l.Nodup) (hxy : [x, y].Sublist l) :
    ¬ [y, x].Sublist l := by
  intro hyx
  induction l with
  | nil => cases hxy
  | cons a l ih =>
    obtain ⟨ha, hl⟩ := List.nodup_cons.mp hl
    cases hxy with
    | cons _ hxy =>
      cases hyx with
      | cons _ hyx => exact ih hl hxy hyx
      | cons_cons _ _ => exact ha (hxy.subset (List.mem_cons_of_mem _ (List.mem_singleton_self _)))
    | cons_cons _ hy =>
      cases hyx with
      | cons _ hyx => exact ha (hyx.subset (List.mem_cons_of_mem _ (List.mem_singleton_self _)))
      | cons_cons _ hx => exact ha (hx.subset (List.mem_singleton_self _))

/-- What was returned stays returned. -/
theorem returned_prefix (ops ops' : List (Op α)) :
    (run h ops).returned <+: (run h (ops ++ ops')).returned := by
  induction ops' using List.reverseRecOn with
  | nil => simp only [List.append_nil, List.prefix_refl]
  | append_singleton ops' op ih =>
    rw [← List.append_assoc, run_concat]
    refine ih.trans ?_
    cases op with
    | offer cmd destroy => exact List.prefix_refl _
    | poll => exact List.prefix_append _ _

/-- A command that the reader was moved past is returned behind newer ones, and so the order of the
    offers is not kept. -/
theorem not_in_order (hN : 2 ≤ N) (h : 0 < N) (hdistinct : (offered ops).Nodup)
    (hnone : Queue.run N ops = none) : ¬ (run h ops).returned.Sublist (offered ops) := by
  intro hsub
  obtain ⟨before, op, after, q, rfl, hq, hop⟩ := Trace.exists_of_exec_eq_none hnone
  obtain ⟨rfl, hlive, s, hs⟩ := Queue.step_eq_none hop
  obtain ⟨hreached, hshows, hreturned⟩ := reached_run h hq
  obtain ⟨-, -, -, -, newer, -, -, -, hlen, hsuffix, hoffered⟩ := hreached.stale s hs
  -- there is a newer command, and it was returned
  obtain ⟨x, rest, rfl⟩ : ∃ x rest, newer = x :: rest :=
    List.exists_cons_of_ne_nil (by rintro rfl; simp at hlen; omega)
  rw [hlive, List.append_nil, ← hreturned] at hsuffix
  have hx : x ∈ (run h before).returned := hsuffix.subset List.mem_cons_self
  have hpoll : (run h (before ++ [.poll])).returned = (run h before).returned ++ [s] := by
    have hslot : (run h before).buffer.cmds.getD (run h before).buffer.nr none = some s := by
      rw [hshows.getD_nr, Queue.content, hlive, if_pos List.length_nil.symm, hs]
    rw [run_concat, Log.step, CmdBuffer.poll, hslot]
    rfl
  have hprefix := returned_prefix (h := h) (before ++ [.poll]) after
  rw [hpoll, List.append_assoc, List.singleton_append] at hprefix
  have hxs : [x, s].Sublist ((run h before).returned ++ [s]) :=
    (List.singleton_sublist.mpr hx).append (List.Sublist.refl [s])
  -- but it was offered behind the other one
  have hsx : [s, x].Sublist (offered (before ++ .poll :: after)) := by
    rw [offered_append]
    have hfirst : [s, x].Sublist (s :: x :: rest) := (List.sublist_append_left [s, x] rest)
    exact (hfirst.trans hoffered).trans (List.sublist_append_left _ _)
  exact not_sublist_swap hdistinct hsx ((hxs.trans hprefix.sublist).trans hsub)

/-- **The order of the commands.**  They come out in the order of the offers exactly if no poll gets
    to a command that the reader was moved past, which takes `N` polls in a row behind an offer that
    met the reader. -/
theorem poll_order (hN : 2 ≤ N) (ops : List (Op α)) (hdistinct : (offered ops).Nodup) :
    (run (Nat.zero_lt_of_lt hN) ops).returned.Sublist (offered ops) ↔ ¬ Overtaken N ops := by
  have h := Nat.zero_lt_of_lt hN
  rw [← queue_run_eq_none h]
  constructor
  · intro hsub hnone
    exact not_in_order hN h hdistinct hnone hsub
  · intro hsome
    obtain ⟨q, hq⟩ := Option.ne_none_iff_exists'.mp hsome
    obtain ⟨hreached, -, hreturned⟩ := reached_run h hq
    rw [hreturned]
    exact (List.sublist_append_left _ _).trans hreached.order

/-- Three slots and one poll. -/
theorem poll_order_three :
    List.Sublist (run (N := 3) (by decide) [.offer 1 true, .offer 2 true, .poll]).returned [1, 2] ↔
      ¬ Overtaken 3 [.offer 1 true, .offer 2 true, .poll] :=
  poll_order (by decide) [.offer 1 true, .offer 2 true, .poll] (by decide)

/-- Two offers and two polls on a buffer of two slots. -/
theorem poll_order_swapped :
    (run (N := 2) (by decide) [.offer 1 true, .offer 2 true, .poll, .poll]).returned = [2, 1] ∧
      offered [.offer 1 true, .offer 2 true, .poll, .poll] = [1, 2] := by
  decide

end CmdBuffer

end CPlayground
