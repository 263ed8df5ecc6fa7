import CPlayground.Lib.Trace
import Mathlib.Tactic.ByContra
import Mathlib.Tactic.SplitIfs

namespace CPlayground.Relay.Collector

open CPlayground.Trace

/-!
# `Collector`: handing payloads over

`addPayload` appends to `pv` under a spin lock and then writes a character to a socket pair.
`Consume` reads one character, swaps `pv` with its own vector `cv` under the lock and iterates over
what it has got.  One character may bring several payloads, and a later one none.

The steps of a run are the append and the write of `addPayload`, in any thread, and the steps of
`Consume`; `quit` and the changes of `state_` may come at any time as well.

* `HandOver.Sound` — nothing is lost, repeated or reordered, and what is in `pv` is announced.
* `collector_hand_over` — `Consume` iterates over the appended payloads in their order, and `pv` is
  empty whenever nothing is left to wake `Consume` up.
-/

/-- `Collector::State`. -/
inductive State where
  | UNINITIALIZED
  | READY
  | DISCONNECTED
  | DONE
  deriving DecidableEq

/-- Where `Consume` is. -/
inductive Pc where
  | top                   -- before the check of `state_`
  | reading               -- in `read`
  | ready                 -- has read a `READY_CHAR`
  | iterating (i : Nat)   -- `i` payloads of `cv` are done
  | exited
  deriving DecidableEq

/-- The collector, with threads `τ` and payloads `α`.  The last three fields record what was
    appended, iterated over and sent. -/
structure HandOver (τ α : Type) where
  pv : List α := []
  cv : List α := []
  chars : List Char := []   -- what is unread in the socket pair
  waking : List τ := []     -- the threads of `addPayload` between the append and the write
  state : State := .READY
  pc : Pc := .top
  appended : List α := []
  iterated : List α := []
  sent : List α := []
  deriving DecidableEq

namespace HandOver

/-- `READY_CHAR`. -/
def READY_CHAR : Char := 'R'

/-- What `quit` writes: `"QUIT"` with its terminator. -/
def QUIT : List Char := ['Q', 'U', 'I', 'T', '\x00']

/-- A step of a run: the append and the write of an `addPayload`, a step of `Consume`, the write of
    `quit`, or a change of `state_`. -/
inductive Act (τ α : Type) where
  | append (t : τ) (payload : α)   -- `addPayload`, up to the end of the lock
  | wake (t : τ)                   -- the `write` of `addPayload`
  | quit
  | setState (state : State)       -- `Produce`
  | consume                        -- the next step of `Consume`

variable {τ α : Type}

/-- One step of `Consume`. -/
def consume (s : HandOver τ α) : Option (HandOver τ α) :=
  match s.pc with
  | .top => some { s with pc := if s.state = .DONE then .exited else .reading }
  | .reading =>
    match s.chars with
    | []      => none
    | c :: cs => some { s with chars := cs, pc := if c = READY_CHAR then .ready else .exited }
  | .ready => some { s with cv := s.pv, pv := s.cv, pc := if s.pv = [] then .top else .iterating 0 }
  | .iterating i =>
    match s.cv[i]? with
    | some payload => some { s with
        pc := .iterating (i + 1)
        iterated := s.iterated ++ [payload]
        sent := if s.state = .READY then s.sent ++ [payload] else s.sent }
    | none => some { s with cv := [], pc := .top }
  | .exited => none

/-- One step of a run. -/
def step [DecidableEq τ] (s : HandOver τ α) : Act τ α → Option (HandOver τ α)
  | .append t payload =>
    if t ∈ s.waking then none
    else some { s with
      pv := s.pv ++ [payload], waking := t :: s.waking, appended := s.appended ++ [payload] }
  | .wake t =>
    if t ∈ s.waking then
      some { s with chars := s.chars ++ [READY_CHAR], waking := s.waking.erase t }
    else none
  | .quit => some { s with chars := s.chars ++ QUIT }
  | .setState state => some { s with state := state }
  | .consume => consume s

/-- The payloads of `cv` that `Consume` is not done with. -/
def pending (s : HandOver τ α) : List α :=
  match s.pc with
  | .iterating i => s.cv.drop i
  | _            => []

/-- A `READY_CHAR` is unread or about to be written. -/
def Due (s : HandOver τ α) : Prop := READY_CHAR ∈ s.chars ∨ s.waking ≠ []

/-- `Consume` will look at `pv`, or it has ended. -/
def Announced (s : HandOver τ α) : Prop := Due s ∨ s.pc = .ready ∨ s.pc = .exited

/-- What holds in every run: what was iterated over, what is on its way and what is in `pv` are the
    payloads in the order of the appends; and payloads in `pv` have a character, or a thread that is
    about to write one. -/
structure Sound (s : HandOver τ α) : Prop where
  order : s.iterated ++ (s.pending ++ s.pv) = s.appended
  cleared : (∀ i, s.pc ≠ .iterating i) → s.cv = []
  announced : s.pv ≠ [] → Announced s

variable {s s' : HandOver τ α}

/-- Nothing was added. -/
theorem sound_init : Sound ({} : HandOver τ α) := ⟨rfl, fun _ => rfl, fun h => absurd rfl h⟩

/-- `Consume` keeps the invariant: it moves the payloads from `pv` to `cv` and on to what was
    iterated over, and a character that it reads leads to the swap. -/
theorem sound_consume (hs : Sound s) (h : consume s = some s') : Sound s' := by
  obtain ⟨horder, hcleared, hannounced⟩ := hs
  unfold consume at h
  unfold pending at horder
  unfold Announced at hannounced
  cases hpc : s.pc with
  | top =>
    simp only [hpc, Option.some.injEq] at h
    simp only [hpc, reduceCtorEq, or_false] at horder hannounced
    subst h
    refine ⟨?_, fun _ => hcleared (by simp [hpc]), fun hpv => .inl (hannounced hpv)⟩
    unfold pending
    split_ifs <;> exact horder
  | reading =>
    simp only [hpc] at h horder
    cases hchars : s.chars with
    | nil => simp [hchars] at h
    | cons c cs =>
      simp only [hchars, Option.some.injEq] at h
      subst h
      refine ⟨?_, fun _ => hcleared (by simp [hpc]), fun _ => .inr ?_⟩
      · unfold pending
        split_ifs <;> exact horder
      · -- whatever was read, it is no longer needed
        split_ifs <;> simp
  | ready =>
    simp only [hpc, Option.some.injEq] at h
    simp only [hpc, List.nil_append] at horder
    subst h
    -- the vectors are swapped, and `cv` was empty
    have hcv : s.cv = [] := hcleared (by simp [hpc])
    by_cases hpv : s.pv = []
    · simp only [if_pos hpv]
      exact ⟨by simpa [pending, hcv, hpv] using horder, fun _ => hpv, fun h => absurd hcv h⟩
    · simp only [if_neg hpv]
      exact ⟨by simpa [pending, hcv] using horder, fun h => absurd rfl (h 0), fun h => absurd hcv h⟩
  | iterating i =>
    simp only [hpc] at h horder
    simp only [hpc, reduceCtorEq, or_false] at hannounced
    cases hget : s.cv[i]? with
    | some payload =>
      simp only [hget, Option.some.injEq] at h
      subst h
      refine ⟨?_, fun h => absurd rfl (h (i + 1)), fun hpv => .inl (hannounced hpv)⟩
      rw [List.drop_eq_getElem?_toList_append, hget] at horder
      simpa [pending] using horder
    | none =>
      simp only [hget, Option.some.injEq] at h
      subst h
      refine ⟨?_, fun _ => rfl, fun hpv => .inl (hannounced hpv)⟩
      rw [List.drop_of_length_le (List.getElem?_eq_none_iff.mp hget)] at horder
      exact horder
  | exited =>
    rw [hpc] at h
    cases h

/-- **Every step keeps the invariant.**  The swap moves all of `pv` at once, so a later character
    may find nothing there. -/
theorem sound_step [DecidableEq τ] {a : Act τ α} (hs : Sound s) (h : step s a = some s') :
    Sound s' := by
  cases a with
  | append t payload =>
    simp only [step] at h
    split_ifs at h
    cases h
    refine ⟨?_, hs.cleared, fun _ => .inl (.inr (by simp))⟩
    -- the order: the new payload comes behind all the others
    have horder := congrArg (· ++ [payload]) hs.order
    simpa [pending] using horder
  | wake t =>
    simp only [step] at h
    split_ifs at h
    cases h
    exact ⟨hs.order, hs.cleared, fun _ => .inl (.inl (by simp))⟩
  | quit =>
    cases h
    refine ⟨hs.order, hs.cleared, fun hpv => ?_⟩
    -- what announces the payloads in `pv` stays in front of the `"QUIT"`
    rcases hs.announced hpv with (hchar | hwaking) | hpc
    · exact .inl (.inl (List.mem_append_left _ hchar))
    · exact .inl (.inr hwaking)
    · exact .inr hpc
  | setState state =>
    cases h
    exact ⟨hs.order, hs.cleared, hs.announced⟩
  | consume => exact sound_consume hs h

/-- `Consume` is in `read`, and there is nothing to be read. -/
def Blocked (s : HandOver τ α) : Prop := s.pc = .reading ∧ s.chars = []

/-- **Handing payloads over.**  In every run, the payloads that `Consume` has iterated over, those
    that it has swapped out and those in `pv` are the appended payloads in their order.  When no
    `READY_CHAR` is unread, no `addPayload` is in progress and `Consume` is blocked in `read`, then
    `pv` is empty, and `Consume` has iterated over everything. -/
theorem collector_hand_over [DecidableEq τ] {acts : List (Act τ α)}
    (h : exec step {} acts = some s) :
    s.iterated ++ (s.pending ++ s.pv) = s.appended ∧
      (READY_CHAR ∉ s.chars → s.waking = [] → Blocked s → s.pv = [] ∧ s.iterated = s.appended) := by
  have hs : Sound s := exec_invariant (fun _ _ _ => sound_step) sound_init h
  refine ⟨hs.order, ?_⟩
  rintro hchars hwaking ⟨hpc, -⟩
  have hpv : s.pv = [] := by
    by_contra hpv
    rcases hs.announced hpv with (hchar | hwake) | hready | hexited
    · exact hchars hchar
    · exact hwake hwaking
    · rw [hpc] at hready
      cases hready
    · rw [hpc] at hexited
      cases hexited
  have horder := hs.order
  simp only [pending, hpc, hpv, List.append_nil] at horder
  exact ⟨hpv, horder⟩

/-- Two threads append before the first of them wakes `Consume` up, which then finds nothing for the
    second character. -/
theorem collector_hand_over_two : ∃ s : HandOver Nat Nat,
    exec step {} [.consume, .append 1 10, .append 2 20, .wake 2, .consume, .consume, .consume,
      .consume, .append 2 30, .wake 1, .consume, .consume, .consume, .wake 2, .consume, .consume,
      .consume, .consume, .consume, .consume, .consume] = some s ∧
    s.pv = [] ∧ s.iterated = [10, 20, 30] := by
  obtain ⟨s, hs, hp⟩ := exists_of_exec_any (p := fun s : HandOver Nat Nat =>
    decide (s.chars = [] ∧ s.waking = [] ∧ s.pc = .reading ∧ s.appended = [10, 20, 30]))
    (show (exec step ({} : HandOver Nat Nat) [.consume, .append 1 10, .append 2 20, .wake 2,
      .consume, .consume, .consume, .consume, .append 2 30, .wake 1, .consume, .consume, .consume,
      .wake 2, .consume, .consume, .consume, .consume, .consume, .consume,
      .consume]).any _ = true by decide)
  obtain ⟨hchars, hwaking, hpc, happended⟩ := of_decide_eq_true hp
  have hrest := (collector_hand_over hs).2 (by simp [hchars]) hwaking ⟨hpc, hchars⟩
  exact ⟨s, hs, hrest.1, hrest.2.trans happended⟩

end HandOver

end CPlayground.Relay.Collector
