import CPlayground.Lib.Condvar

namespace CPlayground.Relay

open CPlayground.Trace

/-!
# `sun::Queue`: a blocking queue that can be finished

`offer` pushes an element and notifies one thread, `poll` waits until there is an element or the
queue is finished, `finish` notifies all threads.  Each locked block is one step, and so is every
look of a woken thread at the condition; any number of threads offer and poll.

* `Queue.step` — the steps, with spurious wake-ups.
* `Queue.delivered_once` — the polls return the elements in the order of the offers, each once.
* `Queue.no_poll_sleeps` — a poll is blocked only if the queue is not finished and every element in
  it has a woken poll of its own, and once the woken polls have looked again no poll is blocked
  beside an element or after `finish`.
-/

variable {T ι : Type}

namespace Queue

/-- The members of a `sun::Queue` that its mutex protects.  `offered`, `polled` and `refused` record
    the history: the elements offered, those that polls have returned, and the polls that have
    returned false. -/
structure Data (T ι : Type) where
  data : List T
  finish : Bool
  offered : List T
  polled : List (ι × T)
  refused : List ι
  deriving DecidableEq

end Queue

/-- A `sun::Queue` with the threads that are in `poll`. -/
abbrev Queue (T ι : Type) := Condvar (Queue.Data T ι) ι

namespace Queue

/-- The empty queue, which is not finished. -/
def init : Queue T ι := ⟨⟨[], false, [], [], []⟩, [], []⟩

/-- The locked block of `poll` once `cv_.wait` returns, `none` while its predicate is false. -/
def poll (i : ι) (q : Data T ι) : Option (Data T ι) :=
  if q.finish then some { q with refused := q.refused ++ [i] }
  else
    match q.data with
    | []      => none
    | t :: ts => some { q with data := ts, polled := q.polled ++ [(i, t)] }

/-- `data_.push_back(std::move(t))`. -/
def push (t : T) (q : Data T ι) : Data T ι :=
  { q with data := q.data ++ [t], offered := q.offered ++ [t] }

/-- The steps of the threads. -/
inductive Act (T ι : Type) where
  /-- `offer(t)`; `woken` is the thread that `notify_one` wakes. -/
  | offer (t : T) (woken : Option ι)
  /-- A thread calls `poll`. -/
  | poll (i : ι)
  /-- A woken thread takes the mutex again. -/
  | resume (i : ι)
  /-- A thread is woken for no reason. -/
  | spurious (i : ι)
  /-- `finish()`. -/
  | finish

variable [DecidableEq ι]

/-- One step.  `offer` notifies one thread, which the label names if any is blocked, and `finish`
    notifies all of them. -/
def step (s : Queue T ι) : Act T ι → Option (Queue T ι)
  | .offer t woken => Condvar.notifyOne { s with data := push t s.data } woken
  | .poll i =>
    -- a thread in `poll` makes no other call
    if i ∈ s.blocked ∨ i ∈ s.woken then none else some (Condvar.enter poll s i)
  | .resume i => Condvar.resume poll s i
  | .spurious i => s.wake i
  | .finish => some (Condvar.notifyAll { s with data := { s.data with finish := true } })

variable {s s' : Queue T ι} {acts : List (Act T ι)}

/-- What the calls of `poll` and the other operations do with the data. -/
inductive Change (q : Data T ι) : Data T ι → Prop where
  | same : Change q q
  | push (t : T) : Change q (push t q)
  | take (i : ι) (t : T) (ts : List T) (hfinish : q.finish = false) (hdata : q.data = t :: ts) :
      Change q { q with data := ts, polled := q.polled ++ [(i, t)] }
  | refuse (i : ι) (hfinish : q.finish = true) :
      Change q { q with refused := q.refused ++ [i] }
  | finish : Change q { q with finish := true }

omit [DecidableEq ι] in
/-- A poll that has a result changes the queue. -/
theorem change_poll {i : ι} {q q' : Data T ι} (h : poll i q = some q') : Change q q' := by
  unfold poll at h
  split at h
  · cases h
    exact .refuse i ‹_›
  · rename_i hfinish
    split at h
    · cases h
    · cases h
      exact .take i _ _ (by simpa using hfinish) ‹_›

omit [DecidableEq ι] in
/-- A thread that finds no element leaves the queue as it is. -/
theorem change_enter (s : Queue T ι) (i : ι) : Change s.data (Condvar.enter poll s i).data := by
  obtain ⟨d, hcall, heq⟩ | ⟨-, heq⟩ := Condvar.enter_cases poll s i
  · rw [heq]
    exact change_poll hcall
  · rw [heq]
    exact .same

/-- **What a step can do to the queue**: add an element, take the first one, refuse a poll of a
    finished queue, finish it, or leave it as it is. -/
theorem change_step {a : Act T ι} (hst : step s a = some s') : Change s.data s'.data := by
  cases a with
  | offer t woken =>
    cases woken with
    | none =>
      simp only [step, Condvar.notifyOne, Option.ite_none_right_eq_some, Option.some.injEq] at hst
      obtain ⟨-, rfl⟩ := hst
      exact .push t
    | some i =>
      obtain ⟨-, rfl⟩ := Condvar.wake_eq_some.mp hst
      exact .push t
  | poll i =>
    simp only [step, Option.ite_none_left_eq_some, Option.some.injEq] at hst
    obtain ⟨-, rfl⟩ := hst
    exact change_enter s i
  | resume i =>
    obtain ⟨-, rfl⟩ := Condvar.resume_eq_some.mp hst
    exact change_enter { s with woken := s.woken.erase i } i
  | spurious i =>
    obtain ⟨-, rfl⟩ := Condvar.wake_eq_some.mp hst
    exact .same
  | finish =>
    cases hst
    exact .finish

/-! ### Each element once -/

/-- The elements that were returned, and then those in the queue, are the ones offered. -/
def InOrder (q : Data T ι) : Prop := q.polled.map Prod.snd ++ q.data = q.offered

omit [DecidableEq ι] in
/-- Nothing was offered. -/
theorem inOrder_init : InOrder (init : Queue T ι).data := rfl

omit [DecidableEq ι] in
/-- Every change keeps the order. -/
theorem inOrder_change {q q' : Data T ι} (h : InOrder q) (hc : Change q q') : InOrder q' := by
  unfold InOrder at h ⊢
  cases hc with
  | same => exact h
  | push t => simp only [push, ← List.append_assoc, h]
  | take i t ts hfinish hdata =>
    rw [← h, hdata, List.map_append, List.append_assoc]
    rfl
  | refuse i hfinish => exact h
  | finish => exact h

/-- The order of every run. -/
theorem inOrder_exec (hrun : exec step init acts = some s) : InOrder s.data :=
  exec_invariant (P := fun s : Queue T ι => InOrder s.data)
    (fun _ _ _ h hst => inOrder_change h (change_step hst)) inOrder_init hrun

/-- A finished queue returns no element: every poll sees the flag first, and nobody takes it
    back. -/
theorem polled_of_finish (hfinish : s.data.finish = true) (hrun : exec step s acts = some s') :
    s'.data.polled = s.data.polled := by
  have hinv := exec_invariant
    (P := fun t : Queue T ι => t.data.finish = true ∧ t.data.polled = s.data.polled) ?_
    ⟨hfinish, rfl⟩ hrun
  · exact hinv.2
  rintro t a t' ⟨hfin, hpolled⟩ hst
  have hc := change_step hst
  generalize t'.data = q' at hc
  cases hc with
  | same => exact ⟨hfin, hpolled⟩
  | push x => exact ⟨hfin, hpolled⟩
  | take i x xs hopen hdata =>
    rw [hfin] at hopen
    cases hopen
  | refuse i h => exact ⟨hfin, hpolled⟩
  | finish => exact ⟨rfl, hpolled⟩

/-- **Each element once.**  In every interleaving of offers, polls and `finish`, the elements that
    polls have returned and then those in the queue are the elements offered, in their order; once
    the queue is finished no poll returns an element any more. -/
theorem delivered_once (acts : List (Act T ι)) (s : Queue T ι)
    (hrun : exec step init acts = some s) :
    s.data.polled.map Prod.snd ++ s.data.data = s.data.offered ∧
      (s.data.finish = true → ∀ more s', exec step s more = some s' →
        s'.data.polled = s.data.polled) :=
  ⟨inOrder_exec hrun, fun hfinish _ _ hmore => polled_of_finish hfinish hmore⟩

/-- Threads 1 and 2 poll, two elements are offered, and thread 2 is faster although thread 1 is
    woken first; then the queue is finished and a third element is left. -/
def handedOver : List (Act Nat Nat) :=
  [.poll 1, .poll 2, .offer 10 (some 1), .offer 20 (some 2), .resume 2, .resume 1, .offer 30 none,
   .finish, .poll 1]

/-- Two polls get the first two elements, and the third one is still there when the queue is
    finished. -/
theorem delivered_once_handedOver : ∃ s, exec step init handedOver = some s ∧
    s.data.polled = [(2, 10), (1, 20)] ∧ s.data.data = [30] ∧ s.data.refused = [1] ∧
    s.data.polled.map Prod.snd ++ s.data.data = s.data.offered := by
  obtain ⟨s, hrun, htest⟩ := exists_of_exec_any
    (show (exec step init handedOver).any (fun s => s.data.polled = [(2, 10), (1, 20)] ∧
      s.data.data = [30] ∧ s.data.refused = [1]) = true by decide +kernel)
  obtain ⟨hpolled, hdata, hrefused⟩ := of_decide_eq_true htest
  exact ⟨s, hrun, hpolled, hdata, hrefused, (delivered_once handedOver s hrun).1⟩

/-! ### No poll sleeps beside an element -/

/-- `n` polls are enough for the elements in the queue, which is not finished. -/
def Enough (q : Data T ι) (n : Nat) : Prop := q.finish = false ∧ q.data.length ≤ n

omit [DecidableEq ι] in
/-- What serves a poll: it takes one element at most, and takes none that another one needs. -/
theorem serves_poll : Condvar.Serves poll (Enough (T := T) (ι := ι)) where
  none := by
    intro i q n h
    unfold poll at h
    split at h
    · cases h
    · rename_i hfinish
      split at h
      · rename_i hdata
        exact ⟨by simpa using hfinish, by rw [hdata]; exact Nat.zero_le n⟩
      · cases h
  some := by
    rintro i q q' n h ⟨hfinish, hlength⟩
    unfold poll at h
    rw [hfinish] at h
    cases hdata : q.data with
    | nil =>
      rw [hdata] at h
      cases h
    | cons t ts =>
      rw [hdata] at h hlength
      cases h
      exact ⟨rfl, Nat.le_of_succ_le_succ hlength⟩
  mono := fun ⟨hfinish, hlength⟩ => ⟨hfinish, Nat.le_succ_of_le hlength⟩

/-- **A step leaves no blocked poll uncovered**: for each element beside a blocked poll there is a
    woken one. -/
theorem covered_step {a : Act T ι} (h : Condvar.Covered Enough s) (hst : step s a = some s') :
    Condvar.Covered Enough s' := by
  cases a with
  | offer t woken =>
    refine Condvar.covered_notifyOne (d := push t s.data) h (fun n hn => ⟨hn.1, ?_⟩) hst
    have hlength := hn.2
    rw [push, List.length_append, List.length_singleton]
    omega
  | poll i =>
    simp only [step, Option.ite_none_left_eq_some, Option.some.injEq] at hst
    obtain ⟨-, rfl⟩ := hst
    exact Condvar.covered_enter serves_poll h i
  | resume i => exact Condvar.covered_resume serves_poll h hst
  | spurious i => exact Condvar.covered_wake serves_poll h hst
  | finish =>
    cases hst
    exact Condvar.covered_notifyAll

/-- So no run does. -/
theorem covered_exec (hrun : exec step init acts = some s) : Condvar.Covered Enough s :=
  exec_invariant (fun _ _ _ h hst => covered_step h hst) (Condvar.covered_of_blocked_eq_nil rfl)
    hrun

/-- **No poll sleeps beside an element.**  In every interleaving a poll is blocked only if the queue
    is not finished and every element in it has a woken poll.  The woken polls can all look again;
    then a poll is blocked only if the queue is empty and not finished. -/
theorem no_poll_sleeps (acts : List (Act T ι)) (s : Queue T ι)
    (hrun : exec step init acts = some s) :
    (s.blocked ≠ [] → s.data.finish = false ∧ s.data.data.length ≤ s.woken.length) ∧
      ∃ s', exec step s (s.woken.map .resume) = some s' ∧ s'.woken = [] ∧
        (s'.blocked ≠ [] → s'.data.finish = false ∧ s'.data.data = []) := by
  refine ⟨covered_exec hrun, ?_⟩
  obtain ⟨s', hresume, hwoken⟩ := Condvar.exists_resumeAll poll s
  have hall : exec step s (s.woken.map .resume) = some s' := by
    rw [exec_map_labels]
    exact hresume
  refine ⟨s', hall, hwoken, fun hne => ?_⟩
  obtain ⟨hfinish, hlength⟩ := covered_exec (exec_append_eq_some.mpr ⟨s, hrun, hall⟩) hne
  rw [hwoken, List.length_nil, Nat.le_zero, List.length_eq_zero_iff] at hlength
  exact ⟨hfinish, hlength⟩

/-- Two polls wait, one element is offered: one of them is woken, and the other one sleeps beside
    the element until the first has looked again. -/
theorem no_poll_sleeps_one : ∃ s : Queue Nat Nat,
    exec step init [.poll 1, .poll 2, .offer 10 (some 1)] = some s ∧
    s.blocked = [2] ∧ s.data.data = [10] ∧ s.data.data.length ≤ s.woken.length := by
  obtain ⟨s, hrun, htest⟩ := exists_of_exec_any
    (show (exec step (init : Queue Nat Nat) [.poll 1, .poll 2, .offer 10 (some 1)]).any
      (fun s => s.blocked = [2] ∧ s.data.data = [10]) = true by decide +kernel)
  obtain ⟨hblocked, hdata⟩ := of_decide_eq_true htest
  refine ⟨s, hrun, hblocked, hdata, ((no_poll_sleeps _ s hrun).1 ?_).2⟩
  rw [hblocked]
  exact List.cons_ne_nil 2 []

end Queue

end CPlayground.Relay
