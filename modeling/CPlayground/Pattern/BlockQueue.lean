import CPlayground.Lib.Condvar
import CPlayground.Monitor.Notifier
import Mathlib.Data.List.Nodup

namespace CPlayground.Pattern

open CPlayground.Trace
open CPlayground.Monitor (Notifier)

/-!
# `BlockQueue`: one producer and one consumer

`put` pushes an element, wakes all threads and writes `QUEUEREADY` to an eventfd, all under the
mutex.  `ready` waits until the queue is not empty, and `get`, a second locked block, takes the
front without looking whether there is one.  The consumer thread calls them in turn.  With
`USE_EVENT` the consumer polls the eventfd instead of calling `ready`, and calls `get` once for
each read; the value `QUIT` of another thread ends its loop.

* `BlockQueue.step` — the threads of the program, for any number of consumers.
* `BlockQueue.one_consumer_safe` — one consumer never takes the front of an empty queue, gets the
  elements in order and does not sleep beside one.
* `BlockQueue.Event.step`, `BlockQueue.Event.one_get_per_read` — the program with `USE_EVENT`: a
  read that returns more than one put leaves elements behind.
-/

/-- `Event::QUEUEREADY`. -/
def QUEUEREADY : Nat := 1

/-- `Event::QUIT`. -/
def QUIT : Nat := 0x1fffff

variable {T ι : Type}

namespace BlockQueue

/-- The queue and the eventfd.  `passed` are the threads for which `ready` has returned true and
    that have not called `get` yet.  `puts` and `consumed` record the history. -/
structure Data (T ι : Type) where
  q : List T
  notifier : Notifier
  passed : List ι
  /-- `front()` or `pop()` was called on an empty queue. -/
  undefined : Bool
  puts : List T
  consumed : List (ι × T)
  deriving DecidableEq

end BlockQueue

/-- A `BlockQueue` with the threads that are in `ready`. -/
abbrev BlockQueue (T ι : Type) := Condvar (BlockQueue.Data T ι) ι

namespace BlockQueue

/-- The empty queue. -/
def init : BlockQueue T ι := ⟨⟨[], .new, [], false, [], []⟩, [], []⟩

/-- The locked block of `put`, `none` while the write to the eventfd blocks. -/
def put (t : T) (s : BlockQueue T ι) : Option (BlockQueue T ι) :=
  (s.data.notifier.notify QUEUEREADY).map fun n =>
    Condvar.notifyAll
      { s with
        data := { s.data with q := s.data.q ++ [t], notifier := n, puts := s.data.puts ++ [t] } }

/-- `ready`, `none` while the queue is empty. -/
def ready (i : ι) (d : Data T ι) : Option (Data T ι) :=
  if d.q.isEmpty then none else some { d with passed := i :: d.passed }

/-- The locked block of `get`. -/
def get [DecidableEq ι] (i : ι) (d : Data T ι) : Data T ι :=
  match d.q with
  | []      => { d with undefined := true }
  | t :: ts => { d with q := ts, passed := d.passed.erase i, consumed := d.consumed ++ [(i, t)] }

/-- The steps of the threads. -/
inductive Act (T ι : Type) where
  | put (t : T)
  /-- A consumer calls `ready`. -/
  | ready (i : ι)
  /-- A woken consumer takes the mutex again. -/
  | resume (i : ι)
  /-- A consumer is woken for no reason. -/
  | spurious (i : ι)
  /-- `pthread_cond_wait` fails: `ready` returns false, and the consumer ends. -/
  | fail (i : ι)
  /-- A consumer calls `get`. -/
  | get (i : ι)

variable [DecidableEq ι]

/-- One step.  Nothing is possible any more once `front()` or `pop()` was called on an empty
    queue. -/
def step (s : BlockQueue T ι) (a : Act T ι) : Option (BlockQueue T ι) :=
  if s.data.undefined then none
  else
    match a with
    | .put t => put t s
    | .ready i =>
      if i ∈ s.data.passed ∨ i ∈ s.blocked ∨ i ∈ s.woken then none
      else some (Condvar.enter ready s i)
    | .resume i => if i ∈ s.data.passed then none else Condvar.resume ready s i
    | .spurious i => s.wake i
    | .fail i => if i ∈ s.blocked then some { s with blocked := s.blocked.erase i } else none
    | .get i => if i ∈ s.data.passed then some { s with data := get i s.data } else none

variable {s s' : BlockQueue T ι} {acts : List (Act T ι)}

/-! ### What a step can do -/

/-- The outcomes of a step.  A thread that calls `ready`, or looks again, passes or blocks; `woken`
    is whatever the step leaves in the list of the woken threads. -/
inductive Move (s : BlockQueue T ι) : BlockQueue T ι → Prop where
  | put (t : T) (n : Notifier) : Move s (Condvar.notifyAll
      { s with
        data := { s.data with q := s.data.q ++ [t], notifier := n, puts := s.data.puts ++ [t] } })
  | pass (i : ι) (woken : List ι) (hnew : i ∉ s.data.passed) (hq : s.data.q ≠ []) :
      Move s { s with data := { s.data with passed := i :: s.data.passed }, woken := woken }
  | block (i : ι) (woken : List ι) (hq : s.data.q = []) :
      Move s { s with blocked := i :: s.blocked, woken := woken }
  | unblock (i : ι) (woken : List ι) (hi : i ∈ s.blocked) :
      Move s { s with blocked := s.blocked.erase i, woken := woken }
  | get (i : ι) (hi : i ∈ s.data.passed) : Move s { s with data := get i s.data }

omit [DecidableEq ι] in
/-- The two outcomes of `ready`. -/
theorem ready_cases (i : ι) (d : Data T ι) :
    (d.q ≠ [] ∧ ready i d = some { d with passed := i :: d.passed }) ∨
    (d.q = [] ∧ ready i d = none) := by
  unfold ready
  cases d.q with
  | nil => exact .inr ⟨rfl, rfl⟩
  | cons t ts => exact .inl ⟨List.cons_ne_nil t ts, rfl⟩

/-- A thread looks at the condition, for the first time or again. -/
theorem move_enter {i : ι} (hnew : i ∉ s.data.passed) (woken : List ι) :
    Move s (Condvar.enter ready { s with woken := woken } i) := by
  obtain ⟨hq, hready⟩ | ⟨hq, hready⟩ := ready_cases i s.data
  · rw [show Condvar.enter ready { s with woken := woken } i
        = { s with data := { s.data with passed := i :: s.data.passed }, woken := woken } by
      simp only [Condvar.enter, hready]]
    exact .pass i woken hnew hq
  · rw [show Condvar.enter ready { s with woken := woken } i
        = { s with blocked := i :: s.blocked, woken := woken } by
      simp only [Condvar.enter, hready]]
    exact .block i woken hq

/-- **The inversion lemma**: every step is one of the moves.  What invariants need of a step is in
    the relation. -/
theorem move_of_step {a : Act T ι} (hst : step s a = some s') : Move s s' := by
  -- a step is enabled only as long as nothing undefined has happened
  unfold step at hst
  rw [Option.ite_none_left_eq_some] at hst
  replace hst := hst.2
  cases a with
  | put t =>
    obtain ⟨n, -, rfl⟩ := Option.map_eq_some_iff.mp hst
    exact .put t n
  -- a call of `ready` and a thread that wakes up both look at the queue
  | ready i =>
    simp only [Option.ite_none_left_eq_some, Option.some.injEq, not_or] at hst
    obtain ⟨⟨hnew, -⟩, rfl⟩ := hst
    exact move_enter hnew s.woken
  | resume i =>
    simp only [Option.ite_none_left_eq_some] at hst
    obtain ⟨hnew, hresume⟩ := hst
    obtain ⟨-, rfl⟩ := Condvar.resume_eq_some.mp hresume
    exact move_enter hnew (s.woken.erase i)
  | spurious i =>
    obtain ⟨hi, rfl⟩ := Condvar.wake_eq_some.mp hst
    exact .unblock i (i :: s.woken) hi
  | fail i =>
    simp only [Option.ite_none_right_eq_some, Option.some.injEq] at hst
    obtain ⟨hi, rfl⟩ := hst
    exact .unblock i s.woken hi
  | get i =>
    simp only [Option.ite_none_right_eq_some, Option.some.injEq] at hst
    obtain ⟨hi, rfl⟩ := hst
    exact .get i hi

/-- `get` on a queue with a front. -/
theorem get_cons {d : Data T ι} {t : T} {ts : List T} (i : ι) (hq : d.q = t :: ts) : get i d =
    { d with q := ts, passed := d.passed.erase i, consumed := d.consumed ++ [(i, t)] } := by
  simp only [get, hq]

/-! ### One consumer -/

/-- With one consumer, an element is there for it as long as it has passed `ready`, the elements
    come out in the order of the puts, and the consumer blocks only beside an empty queue. -/
structure Safe (s : BlockQueue T ι) : Prop where
  defined : s.data.undefined = false
  order : s.data.consumed.map Prod.snd ++ s.data.q = s.data.puts
  nodup : s.data.passed.Nodup
  passed : s.data.passed ≠ [] → s.data.q ≠ []
  blocked : s.blocked ≠ [] → s.data.q = []

omit [DecidableEq ι] in
/-- Nobody has called anything. -/
theorem safe_init : Safe (init : BlockQueue T ι) :=
  ⟨rfl, rfl, List.nodup_nil, fun h => absurd rfl h, fun h => absurd rfl h⟩

/-- **A move of the program with one consumer keeps it safe.**  Only the consumer takes elements, so
    the one that let it pass `ready` is still there when it calls `get`. -/
theorem safe_move [Subsingleton ι] (h : Safe s) (hm : Move s s') : Safe s' := by
  cases hm with
  | put t n =>
    refine ⟨h.defined, ?_, h.nodup, fun _ => ?_, fun hne => absurd rfl hne⟩
    · simp only [Condvar.notifyAll, ← List.append_assoc, h.order]
    · simp [Condvar.notifyAll]
  | pass i woken hnew hq =>
    exact ⟨h.defined, h.order, List.nodup_cons.mpr ⟨hnew, h.nodup⟩, fun _ => hq, h.blocked⟩
  | block i woken hq => exact ⟨h.defined, h.order, h.nodup, h.passed, fun _ => hq⟩
  | unblock i woken hi =>
    exact ⟨h.defined, h.order, h.nodup, h.passed, fun _ => h.blocked (List.ne_nil_of_mem hi)⟩
  | get i hi =>
    obtain ⟨t, ts, hq⟩ := List.exists_cons_of_ne_nil (h.passed (List.ne_nil_of_mem hi))
    rw [get_cons i hq]
    refine ⟨h.defined, ?_, h.nodup.erase i, fun hne => ?_, fun hne => ?_⟩
    · rw [← h.order, hq, List.map_append, List.append_assoc]
      rfl
    · -- there is no other consumer
      obtain ⟨j, hj⟩ := List.exists_mem_of_ne_nil _ hne
      rw [Subsingleton.elim j i] at hj
      exact absurd hj h.nodup.not_mem_erase
    · have hnil := h.blocked hne
      rw [hq] at hnil
      cases hnil

/-- **One consumer.**  In every interleaving of any number of producers with one consumer thread,
    `get` never takes the front of an empty queue, the elements are consumed in the order of the
    puts, each once, and the consumer is never blocked while there is an element. -/
theorem one_consumer_safe [Subsingleton ι] (acts : List (Act T ι)) (s : BlockQueue T ι)
    (hrun : exec step init acts = some s) :
    s.data.undefined = false ∧ s.data.consumed.map Prod.snd ++ s.data.q = s.data.puts ∧
      (s.blocked ≠ [] → s.data.q = []) := by
  have hsafe : Safe s :=
    exec_invariant (fun _ _ _ h hst => safe_move h (move_of_step hst)) safe_init hrun
  exact ⟨hsafe.defined, hsafe.order, hsafe.blocked⟩

/-- The consumer blocks, is woken by a put and gets two elements in order. -/
theorem one_consumer_safe_two_puts : ∃ s : BlockQueue Nat Unit,
    exec step init [.ready (), .put 0, .resume (), .put 1, .get (), .ready (), .get ()] = some s ∧
    s.data.consumed = [((), 0), ((), 1)] ∧ s.data.undefined = false := by
  obtain ⟨s, hrun, htest⟩ := exists_of_exec_any
    (show (exec step (init : BlockQueue Nat Unit)
      [.ready (), .put 0, .resume (), .put 1, .get (), .ready (), .get ()]).any
      (fun s => s.data.consumed = [((), 0), ((), 1)]) = true by decide +kernel)
  exact ⟨s, hrun, of_decide_eq_true htest, (one_consumer_safe _ s hrun).1⟩

/-- Two consumers pass `ready` beside one element, and both take the front. -/
example : (exec step (init : BlockQueue Nat Nat)
    [.put 0, .ready 1, .ready 2, .get 1, .get 2]).any (fun s => s.data.undefined) = true := by
  decide +kernel

/-! ### The program with `USE_EVENT` -/

namespace Event

/-- Where the loop of the consumer is. -/
inductive Pc where
  | poll
  /-- An event below `QUIT` was read. -/
  | retrieved
  /-- The loop was left. -/
  | left
  deriving DecidableEq

/-- The queue, on which nobody calls `ready`, and the threads.  `reads` records the events below
    `QUIT` that were read, the last one first. -/
structure State (T : Type) where
  queue : BlockQueue T Unit
  pc : Pc
  /-- The spoiler has written `QUIT`. -/
  spoiled : Bool
  reads : List Nat
  deriving DecidableEq

/-- The empty queue; the consumer polls. -/
def init : State T := ⟨BlockQueue.init, .poll, false, []⟩

/-- The value of a counter that is read into an `int64_t`. -/
def int64 (e : Nat) : Int := if e < 2 ^ 63 then e else (e : Int) - 2 ^ 64

/-- The steps of the threads. -/
inductive Act (T : Type) where
  | put (t : T)
  /-- The spoiler writes `QUIT`. -/
  | spoil
  /-- The consumer polls and reads the eventfd. -/
  | read
  /-- The consumer calls `get`. -/
  | get

/-- One step.  The write to the eventfd and the read from it are atomic, and the push of `put` is in
    the same locked block as its write. -/
def step (s : State T) (a : Act T) : Option (State T) :=
  if s.queue.data.undefined then none
  else
    match a with
    | .put t => (put t s.queue).map fun queue => { s with queue := queue }
    | .spoil =>
      if s.spoiled then none
      else
        (s.queue.data.notifier.notify QUIT).map fun n =>
          { s with queue.data.notifier := n, spoiled := true }
    | .read =>
      if s.pc ≠ .poll ∨ s.queue.data.notifier.value = 0 then none
      else
        let e := s.queue.data.notifier.retrieve
        let s := { s with queue.data.notifier := e.2 }
        if int64 e.1 < QUIT then some { s with pc := .retrieved, reads := e.1 :: s.reads }
        else some { s with pc := .left }
    | .get =>
      if s.pc = .retrieved then
        some { s with queue.data := BlockQueue.get () s.queue.data, pc := .poll }
      else none

variable {s s' : State T} {acts : List (Act T)}

/-- The outcomes of a step; a read is split by the test for `QUIT`. -/
inductive Move (s : State T) : State T → Prop where
  | put (t : T) : Move s { s with queue := Condvar.notifyAll { s.queue with
      data := { s.queue.data with
        q := s.queue.data.q ++ [t]
        notifier := ⟨QUEUEREADY :: s.queue.data.notifier.unread⟩
        puts := s.queue.data.puts ++ [t] } } }
  | spoil (hspoiled : ¬ s.spoiled = true) : Move s { s with
      queue.data.notifier := ⟨QUIT :: s.queue.data.notifier.unread⟩, spoiled := true }
  | event (hpc : s.pc = .poll) (hvalue : s.queue.data.notifier.value ≠ 0)
      (hlt : int64 s.queue.data.notifier.value < QUIT) : Move s { s with
        queue.data.notifier := .new, pc := .retrieved
        reads := s.queue.data.notifier.value :: s.reads }
  | leave : Move s { s with queue.data.notifier := .new, pc := .left }
  | get (hpc : s.pc = .retrieved) :
      Move s { s with queue.data := BlockQueue.get () s.queue.data, pc := .poll }

/-- **The inversion lemma**: every step is one of the moves, and only a read has two of them. -/
theorem move_of_step {a : Act T} (hst : step s a = some s') : Move s s' := by
  unfold step at hst
  rw [Option.ite_none_left_eq_some] at hst
  replace hst := hst.2
  cases a with
  | put t =>
    obtain ⟨queue, hput, rfl⟩ := Option.map_eq_some_iff.mp hst
    obtain ⟨n, hn, rfl⟩ := Option.map_eq_some_iff.mp hput
    obtain ⟨-, rfl⟩ := Notifier.notify_eq_some.mp hn
    exact .put t
  | spoil =>
    simp only [Option.ite_none_left_eq_some] at hst
    obtain ⟨hspoiled, hst⟩ := hst
    obtain ⟨n, hn, rfl⟩ := Option.map_eq_some_iff.mp hst
    obtain ⟨-, rfl⟩ := Notifier.notify_eq_some.mp hn
    exact .spoil hspoiled
  -- one `read` takes the whole counter, and its value decides
  | read =>
    simp only [Option.ite_none_left_eq_some, not_or, not_not] at hst
    obtain ⟨⟨hpc, hvalue⟩, hst⟩ := hst
    split at hst
    · rename_i hlt
      cases hst
      exact .event hpc hvalue hlt
    · cases hst
      exact .leave
  | get =>
    simp only [Option.ite_none_right_eq_some, Option.some.injEq] at hst
    obtain ⟨hpc, rfl⟩ := hst
    exact .get hpc

/-- The elements put, as long as the eventfd counts them: those that were not read yet and those
    that the reads have returned. -/
structure Counted (s : State T) : Prop where
  puts : s.queue.data.puts.length
    = s.queue.data.notifier.unread.count QUEUEREADY + (⟨s.reads⟩ : Notifier).value
  consumed : s.queue.data.consumed.length + (if s.pc = .retrieved then 1 else 0) = s.reads.length

/-- The invariant of the program: the elements are in order, the counter of the eventfd is made of
    the puts and of one `QUIT` at most, and while the consumer is in its loop every put is
    counted. -/
structure Inv (s : State T) : Prop where
  defined : s.queue.data.undefined = false
  order : s.queue.data.consumed.map Prod.snd ++ s.queue.data.q = s.queue.data.puts
  value : s.queue.data.notifier.value = s.queue.data.notifier.unread.count QUEUEREADY
    + QUIT * s.queue.data.notifier.unread.count QUIT
  quit : s.queue.data.notifier.unread.count QUIT ≤ if s.spoiled then 1 else 0
  ones : s.queue.data.notifier.unread.count QUEUEREADY ≤ s.queue.data.puts.length
  pos : ∀ e ∈ s.reads, 1 ≤ e
  counted : s.pc ≠ .left → Counted s

/-- No put, no event and no read. -/
theorem inv_init : Inv (init : State T) where
  defined := rfl
  order := rfl
  value := rfl
  quit := Nat.zero_le _
  ones := Nat.zero_le _
  pos := fun _ h => absurd h List.not_mem_nil
  counted := fun _ => ⟨rfl, rfl⟩

/-- Events that are all positive come to their number if each of them is one. -/
theorem length_le_value {reads : List Nat} (hpos : ∀ e ∈ reads, 1 ≤ e) :
    reads.length ≤ (⟨reads⟩ : Notifier).value ∧
      ((⟨reads⟩ : Notifier).value = reads.length ↔ ∀ e ∈ reads, e = 1) := by
  induction reads with
  | nil => exact ⟨Nat.le_refl 0, iff_of_true rfl fun _ h => absurd h List.not_mem_nil⟩
  | cons e reads ih =>
    rw [List.forall_mem_cons] at hpos
    obtain ⟨hle, hiff⟩ := ih hpos.2
    have hcons := Notifier.value_cons ⟨reads⟩ e
    rw [List.forall_mem_cons, ← hiff, List.length_cons, hcons]
    omega

/-- A read of fewer than `2 ^ 62` puts is below `QUIT` only if it has no `QUIT` in it. -/
theorem ones_of_lt_quit (h : Inv s) (hfew : s.queue.data.puts.length < 2 ^ 62)
    (hlt : int64 s.queue.data.notifier.value < QUIT) :
    s.queue.data.notifier.value = s.queue.data.notifier.unread.count QUEUEREADY := by
  have hvalue := h.value
  have hones := h.ones
  have hquit : s.queue.data.notifier.unread.count QUIT ≤ 1 := by
    refine Nat.le_trans h.quit ?_
    split
    · exact Nat.le_refl 1
    · exact Nat.zero_le 1
  generalize s.queue.data.notifier.unread.count QUIT = quits at hquit hvalue
  unfold int64 at hlt
  unfold QUIT at hlt hvalue
  obtain rfl | rfl : quits = 0 ∨ quits = 1 := by omega
  · omega
  · rw [if_pos (by omega)] at hlt
    omega

/-- A put adds one element and one event, so that the elements and the counter stay in step. -/
theorem Inv.put (h : Inv s) (t : T) : Inv { s with queue := Condvar.notifyAll { s.queue with
    data := { s.queue.data with
      q := s.queue.data.q ++ [t]
      notifier := ⟨QUEUEREADY :: s.queue.data.notifier.unread⟩
      puts := s.queue.data.puts ++ [t] } } } := by
  have hvalue := h.value
  have hcons : (QUEUEREADY :: s.queue.data.notifier.unread).count QUIT
      = s.queue.data.notifier.unread.count QUIT := List.count_cons_of_ne (by decide)
  refine ⟨h.defined, ?_, ?_, ?_, ?_, h.pos, fun hpc => ⟨?_, (h.counted hpc).consumed⟩⟩
  · simp only [Condvar.notifyAll, ← List.append_assoc, h.order]
  · simp only [Condvar.notifyAll, Notifier.value_cons, hcons, List.count_cons_self, hvalue]
    unfold QUEUEREADY
    omega
  · simp only [Condvar.notifyAll, hcons]
    exact h.quit
  · simp only [Condvar.notifyAll, List.count_cons_self, List.length_append, List.length_singleton]
    exact Nat.add_le_add_right h.ones 1
  · have hputs := (h.counted hpc).puts
    simp only [Condvar.notifyAll, List.count_cons_self, List.length_append, List.length_singleton]
    omega

/-- The `QUIT` of the spoiler is the only one: it writes it once, and the counter grows by it. -/
theorem Inv.spoil (h : Inv s) (hspoiled : ¬ s.spoiled = true) : Inv { s with
    queue.data.notifier := ⟨QUIT :: s.queue.data.notifier.unread⟩, spoiled := true } := by
  have hvalue := h.value
  have hquit := h.quit
  rw [if_neg hspoiled, Nat.le_zero] at hquit
  have hcons : (QUIT :: s.queue.data.notifier.unread).count QUEUEREADY
      = s.queue.data.notifier.unread.count QUEUEREADY := List.count_cons_of_ne (by decide)
  refine ⟨h.defined, h.order, ?_, ?_, ?_, h.pos, fun hpc => ⟨?_, (h.counted hpc).consumed⟩⟩
  · simp only [Notifier.value_cons, hcons, List.count_cons_self, hvalue, hquit]
    omega
  · simp only [List.count_cons_self, hquit, if_true]
    exact Nat.le_refl 1
  · simp only [hcons]
    exact h.ones
  · simp only [hcons]
    exact (h.counted hpc).puts

/-- An event below `QUIT` is the number of the puts since the read before. -/
theorem Inv.event (h : Inv s) (hfew : s.queue.data.puts.length < 2 ^ 62) (hpc : s.pc = .poll)
    (hvalue : s.queue.data.notifier.value ≠ 0)
    (hlt : int64 s.queue.data.notifier.value < QUIT) : Inv { s with
      queue.data.notifier := .new, pc := .retrieved
      reads := s.queue.data.notifier.value :: s.reads } := by
  obtain ⟨hputs, hconsumed⟩ := h.counted (by rw [hpc]; decide)
  rw [← ones_of_lt_quit h hfew hlt] at hputs
  rw [hpc] at hconsumed
  refine ⟨h.defined, h.order, rfl, Nat.zero_le _, Nat.zero_le _, ?_, fun _ => ⟨?_, ?_⟩⟩
  · exact List.forall_mem_cons.mpr ⟨Nat.pos_of_ne_zero hvalue, h.pos⟩
  · exact hputs.trans (Nat.zero_add _).symm
  · simpa using hconsumed

/-- Nothing is counted any more once the loop was left. -/
theorem Inv.leave (h : Inv s) : Inv { s with queue.data.notifier := .new, pc := .left } :=
  ⟨h.defined, h.order, rfl, Nat.zero_le _, Nat.zero_le _, h.pos, fun hne => absurd rfl hne⟩

/-- There is an element after a read: it has returned at least one put, and only one element was
    taken for each read before. -/
theorem Inv.ne_nil (h : Inv s) (hpc : s.pc = .retrieved) : s.queue.data.q ≠ [] := by
  intro hnil
  obtain ⟨hputs, hconsumed⟩ := h.counted (by rw [hpc]; decide)
  rw [hpc, if_pos rfl] at hconsumed
  have horder := congrArg List.length h.order
  rw [hnil, List.append_nil, List.length_map] at horder
  have hle := (length_le_value h.pos).1
  omega

/-- `get` takes the front, and the consumer polls again. -/
theorem Inv.get (h : Inv s) (hpc : s.pc = .retrieved) :
    Inv { s with queue.data := BlockQueue.get () s.queue.data, pc := .poll } := by
  obtain ⟨hputs, hconsumed⟩ := h.counted (by rw [hpc]; decide)
  rw [hpc, if_pos rfl] at hconsumed
  obtain ⟨t, ts, hq⟩ := List.exists_cons_of_ne_nil (h.ne_nil hpc)
  rw [get_cons () hq]
  refine ⟨h.defined, ?_, h.value, h.quit, h.ones, h.pos, fun _ => ⟨hputs, ?_⟩⟩
  · rw [← h.order, hq, List.map_append, List.append_assoc]
    rfl
  · simpa using hconsumed

/-- **A move keeps the invariant** as long as there are so few puts that the counter does not reach
    its sign bit. -/
theorem inv_move (hfew : s.queue.data.puts.length < 2 ^ 62) (h : Inv s) (hm : Move s s') :
    Inv s' := by
  cases hm with
  | put t => exact h.put t
  | spoil hspoiled => exact h.spoil hspoiled
  | event hpc hvalue hlt => exact h.event hfew hpc hvalue hlt
  | leave => exact h.leave
  | get hpc => exact h.get hpc

/-- The elements put are never taken back. -/
theorem puts_move (hm : Move s s') :
    s.queue.data.puts.length ≤ s'.queue.data.puts.length := by
  cases hm with
  | put t => simp [Condvar.notifyAll]
  | spoil | event | leave => exact Nat.le_refl _
  | get =>
    unfold BlockQueue.get
    split
    · exact Nat.le_refl _
    · exact Nat.le_refl _

/-- The invariant of every run, which had fewer puts at each of its states than at its end. -/
theorem inv_exec (hrun : exec step init acts = some s)
    (hfew : s.queue.data.puts.length < 2 ^ 62) : Inv s := by
  refine exec_invariant (P := fun s : State T => s.queue.data.puts.length < 2 ^ 62 → Inv s) ?_
    (fun _ => inv_init) hrun hfew
  intro s a s' h hst hfew
  have hm := move_of_step hst
  have hless := Nat.lt_of_le_of_lt (puts_move hm) hfew
  exact inv_move hless (h hless) hm

/-- **One get per read.**  In every interleaving of the program with `USE_EVENT` and fewer than `2
    ^ 62` puts, `get` never takes the front of an empty queue and the elements are consumed in
    order, one for each read.  So when all that was written has been read, the queue is empty
    exactly if every read has returned a single put. -/
theorem one_get_per_read (acts : List (Act T)) (s : State T) (hrun : exec step init acts = some s)
    (hfew : s.queue.data.puts.length < 2 ^ 62) :
    s.queue.data.undefined = false ∧
      s.queue.data.consumed.map Prod.snd ++ s.queue.data.q = s.queue.data.puts ∧
      (s.pc = .poll → s.queue.data.consumed.length = s.reads.length ∧
        (s.queue.data.notifier.unread = [] → (s.queue.data.q = [] ↔ ∀ e ∈ s.reads, e = 1))) := by
  have hinv := inv_exec hrun hfew
  refine ⟨hinv.defined, hinv.order, fun hpc => ?_⟩
  obtain ⟨hputs, hconsumed⟩ := hinv.counted (by rw [hpc]; decide)
  rw [hpc] at hconsumed
  have hcount : s.queue.data.consumed.length = s.reads.length := hconsumed
  refine ⟨hcount, fun hread => ?_⟩
  have horder := congrArg List.length hinv.order
  rw [List.length_append, List.length_map, hputs, hread, List.count_nil, Nat.zero_add] at horder
  rw [← (length_le_value hinv.pos).2, ← List.length_eq_zero_iff]
  omega

/-- Two elements are put before the consumer reads: it gets one of them, and the other one is left
    although no event is. -/
theorem one_get_per_read_two_puts : ∃ s : State Nat,
    exec step init [.put 0, .put 1, .read, .get] = some s ∧
    s.queue.data.notifier.unread = [] ∧ s.reads = [2] ∧ s.queue.data.q ≠ [] := by
  obtain ⟨s, hrun, htest⟩ := exists_of_exec_any
    (show (exec step (init : State Nat) [.put 0, .put 1, .read, .get]).any
      (fun s => s.queue.data.notifier.unread = [] ∧ s.reads = [2] ∧ s.pc = .poll ∧
        s.queue.data.puts.length = 2) = true by decide +kernel)
  obtain ⟨hunread, hreads, hpc, hputs⟩ := of_decide_eq_true htest
  have hread := one_get_per_read _ s hrun (by rw [hputs]; decide)
  refine ⟨s, hrun, hunread, hreads, ?_⟩
  rw [Ne, (hread.2.2 hpc).2 hunread, hreads]
  decide

end Event

end BlockQueue

end CPlayground.Pattern
