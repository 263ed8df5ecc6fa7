import CPlayground.Lib.Bytes
import CPlayground.Lib.Loop
import CPlayground.Lib.Trace
import CPlayground.Monitor.Notifier

namespace CPlayground.Monitor

open CPlayground.Trace CPlayground.Loop

/-!
# `FileWatcher`: the events of inotify, and a `start` that does not return

The thread of `FileWatcher::Run` waits for its notifier and for inotify.  It reads as many events as
fit in its buffer and walks through them: an event is a header of sixteen bytes, the last four of
which are the length of the name that follows.

`Runner::start` waits until the state is `IDLE`.  A `TaskRunner` sets it when its thread has
started; `FileWatcher::Run` does not set the state at all.

* `FileWatcher.parse_bytes` — walking through the bytes of the events makes the calls for the
  events, in order, and stays in the buffer.
* `FileWatcher.events_in_order` — in every run the calls so far, and those for the events that
  inotify still has, are those for the events that have happened.
* `FileWatcher.start_blocks` — in every run `start` has returned only if it made no thread, as
  `stop` was called before.
-/

namespace FileWatcher

/-- `struct inotify_event`; `len` is the length of the name with its padding. -/
structure Event where
  wd : Int32
  mask : UInt32
  cookie : UInt32
  name : List UInt8
  deriving DecidableEq

/-- `FileWatcher::EventType`. -/
inductive EventType where
  | CREATE
  | DELETE
  deriving DecidableEq

def IN_CREATE : UInt32 := 0x100
def IN_DELETE : UInt32 := 0x200

/-- The event as the kernel stores it. -/
def Event.bytes (e : Event) : List UInt8 :=
  Bytes.int32 e.wd ++ (Bytes.word32 e.mask ++ (Bytes.word32 e.cookie ++
    (Bytes.word32 (UInt32.ofNat e.name.length) ++ e.name)))

/-- Four bytes at an offset. -/
def four (buf : List UInt8) (p : Nat) : List UInt8 := (buf.drop p).take 4

/-- `reinterpret_cast<Event *>(p)`.  `none` if the event is not in the buffer. -/
def eventAt (buf : List UInt8) (p : Nat) : Option Event :=
  let len := (Bytes.ofWord32 (four buf (p + 12))).toNat
  if p + 16 ≤ buf.length ∧ p + 16 + len ≤ buf.length then
    some { wd := Bytes.ofInt32 (four buf p), mask := Bytes.ofWord32 (four buf (p + 4)),
           cookie := Bytes.ofWord32 (four buf (p + 8)), name := (buf.drop (p + 16)).take len }
  else none

/-- Which callbacks are set. -/
structure Callbacks where
  on_file_create : Bool
  on_file_delete : Bool

/-- The callback for an event. -/
def Callbacks.select (c : Callbacks) (e : Event) : Option EventType :=
  if e.mask &&& IN_CREATE ≠ 0 ∧ c.on_file_create then some .CREATE
  else if e.mask &&& IN_DELETE ≠ 0 ∧ c.on_file_delete then some .DELETE
  else none

/-- The calls for an event: one or none. -/
def Callbacks.calls (c : Callbacks) (e : Event) : List (EventType × Event) :=
  (c.select e).toList.map (·, e)

/-- The variables of the loop: `p`, and the calls so far. -/
structure Walk where
  p : Nat
  calls : List (EventType × Event)

/-- The condition of the loop. -/
def unread (nr : Nat) (s : Walk) : Bool := s.p < nr

/-- The body of the loop. -/
def walkRound (c : Callbacks) (buf : List UInt8) (s : Walk) : Option Walk :=
  (eventAt buf s.p).map fun e => { p := s.p + (16 + e.name.length), calls := s.calls ++ c.calls e }

/-- The loop over the `nr` bytes that were read, for at most `fuel` rounds: the calls. -/
def parse (c : Callbacks) (fuel : Nat) (buf : List UInt8) (nr : Nat) :
    Option (List (EventType × Event)) :=
  (run (unread nr) (walkRound c buf) fuel { p := 0, calls := [] }).map Walk.calls

/-! ### The bytes of the events -/

variable {c : Callbacks} {fuel : Nat}

/-- A header of sixteen bytes, and the name. -/
theorem length_bytes (e : Event) : e.bytes.length = 16 + e.name.length := by
  simp only [Event.bytes, List.length_append, Bytes.length_int32, Bytes.length_word32]
  omega

/-- The four bytes behind a piece of the buffer. -/
theorem four_append {pre word : List UInt8} (post : List UInt8) {p : Nat} (hp : p = pre.length)
    (hword : word.length = 4) : four (pre ++ (word ++ post)) p = word := by
  rw [four, List.drop_left' hp.symm, List.take_left' hword]

/-- An event is read as it was stored, with the length of its name in front of the name. -/
theorem eventAt_bytes (pre : List UInt8) {e : Event} (hlen : e.name.length < 2 ^ 32)
    (post : List UInt8) : eventAt (pre ++ (e.bytes ++ post)) pre.length = some e := by
  have hbuf : pre ++ (e.bytes ++ post) = pre ++ (Bytes.int32 e.wd ++ (Bytes.word32 e.mask ++
      (Bytes.word32 e.cookie ++
        (Bytes.word32 (UInt32.ofNat e.name.length) ++ (e.name ++ post))))) := by
    simp only [Event.bytes, List.append_assoc]
  -- the fields, each behind those in front of it
  have hwd : four (pre ++ (e.bytes ++ post)) pre.length = Bytes.int32 e.wd := by
    rw [hbuf]
    exact four_append _ rfl (Bytes.length_int32 _)
  have hmask : four (pre ++ (e.bytes ++ post)) (pre.length + 4) = Bytes.word32 e.mask := by
    rw [hbuf, ← List.append_assoc pre]
    exact four_append _ (by simp) (Bytes.length_word32 _)
  have hcookie : four (pre ++ (e.bytes ++ post)) (pre.length + 8) = Bytes.word32 e.cookie := by
    rw [hbuf, ← List.append_assoc pre, ← List.append_assoc (pre ++ _)]
    exact four_append _ (by simp) (Bytes.length_word32 _)
  have hword : four (pre ++ (e.bytes ++ post)) (pre.length + 12)
      = Bytes.word32 (UInt32.ofNat e.name.length) := by
    rw [hbuf, ← List.append_assoc pre, ← List.append_assoc (pre ++ _),
      ← List.append_assoc (pre ++ _ ++ _)]
    exact four_append _ (by simp) (Bytes.length_word32 _)
  have hname : ((pre ++ (e.bytes ++ post)).drop (pre.length + 16)).take e.name.length = e.name := by
    rw [hbuf, ← List.append_assoc pre, ← List.append_assoc (pre ++ _),
      ← List.append_assoc (pre ++ _ ++ _), ← List.append_assoc (pre ++ _ ++ _ ++ _),
      List.drop_left' (by simp), List.take_left' rfl]
  have hlast : (UInt32.ofNat e.name.length).toNat = e.name.length := Nat.mod_eq_of_lt hlen
  have hroom : pre.length + 16 + e.name.length ≤ (pre ++ (e.bytes ++ post)).length := by
    rw [List.length_append, List.length_append, length_bytes]
    omega
  simp only [eventAt, hwd, hmask, hcookie, hword, Bytes.ofInt32_int32, Bytes.ofWord32_word32, hlast,
    hname]
  rw [if_pos ⟨by omega, hroom⟩]

/-- **The loop** over the events that are left.  The induction is on them; `pre` are the bytes of
    the events that were handled. -/
theorem walkLoop (pre : List UInt8) (es : List Event) (rest : List UInt8)
    (calls : List (EventType × Event)) (hes : ∀ e ∈ es, e.name.length < 2 ^ 32)
    (hfuel : es.length ≤ fuel) :
    run (unread (pre ++ es.flatMap Event.bytes).length)
        (walkRound c (pre ++ (es.flatMap Event.bytes ++ rest))) fuel { p := pre.length, calls }
      = some { p := (pre ++ es.flatMap Event.bytes).length,
               calls := calls ++ es.flatMap c.calls } := by
  -- by induction on the events that are left; `pre` is what the pointer has passed
  induction es generalizing pre calls fuel with
  | nil =>
    rw [run_of_not (by simp [unread])]
    simp
  | cons e es ih =>
    rw [List.forall_mem_cons] at hes
    obtain ⟨fuel, rfl⟩ : ∃ k, fuel = k + 1 := ⟨fuel - 1, by simp at hfuel; omega⟩
    have hbuf : pre ++ ((e :: es).flatMap Event.bytes ++ rest)
        = pre ++ (e.bytes ++ (es.flatMap Event.bytes ++ rest)) := by simp
    have hround : walkRound c (pre ++ ((e :: es).flatMap Event.bytes ++ rest))
        { p := pre.length, calls }
        = some { p := (pre ++ e.bytes).length, calls := calls ++ c.calls e } := by
      rw [walkRound, hbuf, eventAt_bytes pre hes.1, Option.map_some, List.length_append,
        length_bytes]
    have hgo : unread (pre ++ (e :: es).flatMap Event.bytes).length { p := pre.length, calls }
        = true := by
      simp [unread, length_bytes]
    have hnext := ih (pre ++ e.bytes) (calls ++ c.calls e) hes.2 (by simp at hfuel; omega)
    rw [run_succ hgo hround]
    simpa only [List.flatMap_cons, List.append_assoc] using hnext

/-- **Walking through a buffer** of events, with anything behind them: the calls are those of the
    events, in order. -/
theorem parse_bytes (c : Callbacks) (es : List Event) (rest : List UInt8)
    (hes : ∀ e ∈ es, e.name.length < 2 ^ 32) (hfuel : es.length ≤ fuel) :
    parse c fuel (es.flatMap Event.bytes ++ rest) (es.flatMap Event.bytes).length
      = some (es.flatMap c.calls) := by
  have hloop := walkLoop [] es rest [] hes hfuel (c := c)
  rw [List.nil_append, List.nil_append, List.nil_append, List.length_nil] at hloop
  rw [parse, hloop]
  rfl

/-! ### The thread -/

/-- Where the thread of `Run` is. -/
inductive RunPc where
  | none         -- not created
  | poll
  | reading      -- `poll` has reported inotify, and not the notifier
  | exited
  | undefined    -- the walk through the buffer has failed
  deriving DecidableEq

/-- Where the caller of `start` is. -/
inductive StartPc where
  | none
  | waiting
  | returned
  deriving DecidableEq

end FileWatcher

open FileWatcher in
/-- A `FileWatcher` with its inotify instance. -/
structure FileWatcher where
  callbacks : Callbacks
  state : State := .NOTHINGNESS
  notifier : Notifier := .new
  queue : List Event := []                     -- what inotify has not delivered yet
  run : RunPc := .none
  start : StartPc := .none
  happened : List Event := []                  -- all events, and
  calls : List (EventType × Event) := []       -- all calls so far

namespace FileWatcher

/-- `stateful::initialized`. -/
def initialized (s : FileWatcher) : Bool :=
  match s.state with
  | .NOTHINGNESS => false
  | .INITIALIZED | .TRANSFERRED | .IDLE | .WORK | .TERMINATED => true

/-- A step of the caller of `start`, of the thread, of inotify, or of the caller of `stop`. -/
inductive Act where
  | start
  | wait              -- one round of `while (getstate() != State::IDLE)`
  | happen (e : Event)
  | poll              -- inotify is ready
  | read (k : Nat)    -- the next `k` events fit in the buffer
  | readFails
  | quit              -- the notifier is ready
  | stop

/-- One step.  A call of `start` on a state that is set returns at once, and otherwise it makes the
    thread and waits; `stop` may be called at any time. -/
def step (s : FileWatcher) : Act → Option FileWatcher
  | .start =>
    match s.start with
    | .none =>
      if s.initialized then some { s with start := .returned }
      else some { s with run := .poll, start := .waiting }
    | _ => none
  | .wait =>
    match s.start with
    | .waiting => if s.state = .IDLE then some { s with start := .returned } else some s
    | _ => none
  | .happen e =>
    if e.name.length < 2 ^ 32
    then some { s with queue := s.queue ++ [e], happened := s.happened ++ [e] }
    else none
  | .poll =>
    if s.run = .poll ∧ s.notifier.value = 0 ∧ s.queue ≠ [] then some { s with run := .reading }
    else none
  | .read k =>
    let bytes := (s.queue.take k).flatMap Event.bytes
    if s.run = .reading ∧ 0 < k ∧ k ≤ s.queue.length ∧ bytes.length ≤ 4096 then
      match parse s.callbacks bytes.length bytes bytes.length with
      | some calls =>
        some { s with run := .poll, queue := s.queue.drop k, calls := s.calls ++ calls }
      | none       => some { s with run := .undefined }
    else none
  | .readFails => if s.run = .reading then some { s with run := .exited } else none
  | .quit =>
    if s.run = .poll ∧ s.notifier.value ≠ 0 then some { s with run := .exited } else none
  | .stop =>
    (s.notifier.notify Notifier.kNotifyQuit).map fun n =>
      { s with notifier := n, state := .TERMINATED }

variable {s s' : FileWatcher}

/-- The outcomes of a step, one constructor for each branch; `overrun` is the walk that leaves the
    buffer, which `Inv.parse_take` excludes. -/
inductive Move (s : FileWatcher) : Act → FileWatcher → Prop where
  | known (hpc : s.start = .none) (hinit : s.initialized = true) :
      Move s .start { s with start := .returned }
  | created : Move s .start { s with run := .poll, start := .waiting }
  | ready (hidle : s.state = .IDLE) : Move s .wait { s with start := .returned }
  | again : Move s .wait s
  | happen (e : Event) (hlen : e.name.length < 2 ^ 32) :
      Move s (.happen e) { s with queue := s.queue ++ [e], happened := s.happened ++ [e] }
  | poll (hpc : s.run = .poll) : Move s .poll { s with run := .reading }
  | read (k : Nat) (calls : List (EventType × Event)) (hpc : s.run = .reading)
      (hparse : parse s.callbacks ((s.queue.take k).flatMap Event.bytes).length
        ((s.queue.take k).flatMap Event.bytes) ((s.queue.take k).flatMap Event.bytes).length
          = some calls) :
      Move s (.read k) { s with run := .poll, queue := s.queue.drop k, calls := s.calls ++ calls }
  | overrun (k : Nat)
      (hparse : parse s.callbacks ((s.queue.take k).flatMap Event.bytes).length
        ((s.queue.take k).flatMap Event.bytes) ((s.queue.take k).flatMap Event.bytes).length
          = none) :
      Move s (.read k) { s with run := .undefined }
  | readFails (hpc : s.run = .reading) : Move s .readFails { s with run := .exited }
  | quit (hpc : s.run = .poll) : Move s .quit { s with run := .exited }
  | stop (n : Notifier) : Move s .stop { s with notifier := n, state := .TERMINATED }

/-- **The inversion lemma**: every step is one of the moves.  A read has two of them, by what the
    parser returns. -/
theorem move_of_step {a : Act} (hst : step s a = some s') : Move s a s' := by
  cases a with
  | start =>
    simp only [step] at hst
    split at hst
    · rename_i hpc
      -- the state is known already, or a thread is made
      split at hst
      · rename_i hinit
        cases hst
        exact .known hpc hinit
      · cases hst
        exact .created
    · cases hst
  | wait =>
    simp only [step] at hst
    split at hst
    · split at hst
      · rename_i hidle
        cases hst
        exact .ready hidle
      · cases hst
        exact .again
    · cases hst
  | happen e =>
    simp only [step, Option.ite_none_right_eq_some, Option.some.injEq] at hst
    obtain ⟨hlen, rfl⟩ := hst
    exact .happen e hlen
  | poll =>
    simp only [step, Option.ite_none_right_eq_some, Option.some.injEq] at hst
    obtain ⟨⟨hpc, -⟩, rfl⟩ := hst
    exact .poll hpc
  | read k =>
    simp only [step, Option.ite_none_right_eq_some] at hst
    obtain ⟨⟨hpc, -⟩, hst⟩ := hst
    -- the parser stays in the buffer, or not
    split at hst
    · rename_i calls hparse
      cases hst
      exact .read k calls hpc hparse
    · rename_i hparse
      cases hst
      exact .overrun k hparse
  | readFails =>
    simp only [step, Option.ite_none_right_eq_some, Option.some.injEq] at hst
    obtain ⟨hpc, rfl⟩ := hst
    exact .readFails hpc
  | quit =>
    simp only [step, Option.ite_none_right_eq_some, Option.some.injEq] at hst
    obtain ⟨⟨hpc, -⟩, rfl⟩ := hst
    exact .quit hpc
  | stop =>
    simp only [step, Option.map_eq_some_iff] at hst
    obtain ⟨n, -, rfl⟩ := hst
    exact .stop n

/-! ### The invariant -/

/-- What holds between two steps.  `ordered` is the account of the events, and the last two fields
    say that nobody sets the state but `stop`, and that the caller who has made the thread still
    waits. -/
structure Inv (s : FileWatcher) : Prop where
  lengths : ∀ e ∈ s.queue, e.name.length < 2 ^ 32
  ordered : s.calls ++ s.queue.flatMap s.callbacks.calls = s.happened.flatMap s.callbacks.calls
  defined : s.run ≠ .undefined
  state : s.state = .NOTHINGNESS ∨ s.state = .TERMINATED
  thread : s.run ≠ .none → s.start = .waiting

/-- The state is never the one that `start` waits for. -/
theorem Inv.not_idle (h : Inv s) : s.state ≠ .IDLE := by
  rcases h.state with heq | heq <;> rw [heq] <;> nofun

/-- Neither the thread nor the callers have begun. -/
theorem inv_init (c : Callbacks) : Inv { callbacks := c } :=
  ⟨nofun, rfl, nofun, .inl rfl, fun hne => absurd rfl hne⟩

/-- A step of the thread to another place. -/
theorem Inv.of_run (h : Inv s) {pc : RunPc} (hrun : s.run ≠ .none) (hpc : pc ≠ .undefined) :
    Inv { s with run := pc } :=
  ⟨h.lengths, h.ordered, hpc, h.state, fun _ => h.thread hrun⟩

/-- The fuel of `parse` is enough: there is no event without bytes. -/
theorem length_flatMap_bytes (es : List Event) : es.length ≤ (es.flatMap Event.bytes).length := by
  induction es with
  | nil => exact Nat.le_refl _
  | cons e es ih =>
    rw [List.flatMap_cons, List.length_append, length_bytes, List.length_cons]
    omega

/-- The calls for the events that a read hands over: they are whole events, so that the walk
    through them stays in the buffer. -/
theorem Inv.parse_take (h : Inv s) (k : Nat) :
    parse s.callbacks ((s.queue.take k).flatMap Event.bytes).length
      ((s.queue.take k).flatMap Event.bytes) ((s.queue.take k).flatMap Event.bytes).length
        = some ((s.queue.take k).flatMap s.callbacks.calls) := by
  have hparse := parse_bytes s.callbacks (s.queue.take k) []
    (fun e he => h.lengths e (List.mem_of_mem_take he)) (length_flatMap_bytes _)
  rwa [List.append_nil] at hparse

/-- **Every move keeps the invariant.**  The only one that touches the account is a read, which
    takes whole events from the queue. -/
theorem inv_move {a : Act} (h : Inv s) (hm : Move s a s') : Inv s' := by
  cases hm with
  | known hpc hinit =>
    -- a call that finds the state set has made no thread
    refine ⟨h.lengths, h.ordered, h.defined, h.state, fun hne => ?_⟩
    have hwaiting := h.thread hne
    rw [hpc] at hwaiting
    cases hwaiting
  | created => exact ⟨h.lengths, h.ordered, nofun, h.state, fun _ => rfl⟩
  | ready hidle => exact absurd hidle h.not_idle
  | again => exact h
  | happen e hlen =>
    refine ⟨fun e' he' => ?_, ?_, h.defined, h.state, h.thread⟩
    · rcases List.mem_append.mp he' with he' | he'
      · exact h.lengths e' he'
      · rw [List.mem_singleton.mp he']
        exact hlen
    · simp only [List.flatMap_append, ← List.append_assoc, h.ordered]
  | read k calls hpc hparse =>
    -- what was read are the first events, and the parser makes the callbacks for them in order
    rw [h.parse_take] at hparse
    cases hparse
    refine ⟨fun e he => h.lengths e (List.mem_of_mem_drop he), ?_, nofun, h.state,
      fun _ => h.thread (by rw [hpc]; nofun)⟩
    simp only [List.append_assoc, ← List.flatMap_append, List.take_append_drop, h.ordered]
  | overrun k hparse =>
    rw [h.parse_take] at hparse
    cases hparse
  | poll hpc | readFails hpc | quit hpc => exact h.of_run (by rw [hpc]; nofun) nofun
  | stop n => exact ⟨h.lengths, h.ordered, h.defined, .inr rfl, h.thread⟩

/-! ### The runs -/

/-- The invariant of every run. -/
theorem inv_exec {c : Callbacks} {acts : List Act}
    (hrun : exec step { callbacks := c } acts = some s) : Inv s :=
  exec_invariant (fun _ _ _ h hst => inv_move h (move_of_step hst)) (inv_init c) hrun

/-- **The events are handled in order.**  In every run the thread stays in its buffer, and the
    calls it has made, followed by those for the events that inotify still has, are the calls for
    all events that have happened: none is lost, and none is handled twice. -/
theorem events_in_order (c : Callbacks) (acts : List Act) (s : FileWatcher)
    (hrun : exec step { callbacks := c } acts = some s) :
    s.run ≠ .undefined ∧
      s.calls ++ s.queue.flatMap s.callbacks.calls = s.happened.flatMap s.callbacks.calls :=
  ⟨(inv_exec hrun).defined, (inv_exec hrun).ordered⟩

/-- A file is created and deleted, with a callback for the creation. -/
def touched : List Act :=
  [.start, .happen ⟨1, IN_CREATE, 0, [0x61, 0, 0, 0]⟩, .happen ⟨1, IN_DELETE, 0, [0x61, 0, 0, 0]⟩,
   .wait, .poll, .read 2, .wait]

/-- The creation is reported once, and the deletion is not, as there is no callback for it. -/
theorem events_in_order_touched : ∃ s, exec step { callbacks := ⟨true, false⟩ } touched = some s ∧
    s.queue = [] ∧ s.calls.length = 1 ∧ s.calls = s.happened.flatMap s.callbacks.calls := by
  obtain ⟨s, hrun, htest⟩ := exists_of_exec_any
    (show (exec step { callbacks := ⟨true, false⟩ } touched).any (fun s => s.queue = [] ∧
      s.calls.length = 1) = true by decide +kernel)
  obtain ⟨hqueue, hcalls⟩ := of_decide_eq_true htest
  have hordered := (events_in_order ⟨true, false⟩ touched s hrun).2
  rw [hqueue, List.flatMap_nil, List.append_nil] at hordered
  exact ⟨s, hrun, hqueue, hcalls, hordered⟩

/-- Only `stop` sets the state. -/
theorem stop_of_initialized {a : Act} (hm : Move s a s') (hbefore : ¬ s.initialized = true)
    (hafter : s'.initialized = true) : a = .stop := by
  cases hm with
  | stop n => rfl
  | _ => exact absurd hafter hbefore

/-- `start` returns only at its first test: the state that it waits for is never set. -/
theorem start_of_returned {a : Act} (h : Inv s) (hm : Move s a s')
    (hbefore : s.start ≠ .returned) (hafter : s'.start = .returned) :
    a = .start ∧ s.initialized = true := by
  cases hm with
  | known hpc hinit => exact ⟨rfl, hinit⟩
  | created => cases hafter
  | ready hidle => exact absurd hidle h.not_idle
  | _ => exact absurd hafter hbefore

/-- **`start` does not return.**  In every run a call of `start` that has returned has made no
    thread, and `stop` was called before it, which has set the state.  One that has made the thread
    waits for a state that nobody sets. -/
theorem start_blocks (c : Callbacks) (acts : List Act) (s : FileWatcher)
    (hrun : exec step { callbacks := c } acts = some s) (hret : s.start = .returned) :
    s.run = .none ∧ ∃ before after, acts = before ++ .start :: after ∧ .stop ∈ before := by
  constructor
  · by_contra hne
    have hwaiting := (inv_exec hrun).thread hne
    rw [hret] at hwaiting
    cases hwaiting
  · obtain ⟨before, a, after, u, v, rfl, hu, hv, hbefore, hafter⟩ :=
      exists_step_of_exec (P := fun s => s.start = .returned) hrun (by simp) hret
    obtain ⟨rfl, hinit⟩ := start_of_returned (inv_exec hu) (move_of_step hv) hbefore hafter
    refine ⟨before, after, rfl, ?_⟩
    -- and the state that this call has found was set by a step in front of it
    obtain ⟨bs, b, cs, w, x, rfl, -, hx, hw, hxinit⟩ :=
      exists_step_of_exec (P := fun s => s.initialized = true) hu (by simp [initialized]) hinit
    rw [stop_of_initialized (move_of_step hx) hw hxinit]
    exact List.mem_append_right _ List.mem_cons_self

/-- The caller of `stop` comes first. -/
theorem start_blocks_stopped :
    ∃ s, exec step { callbacks := ⟨true, false⟩ } [.stop, .start] = some s ∧
    s.start = .returned ∧ s.run = .none := by
  obtain ⟨s, hrun, htest⟩ := exists_of_exec_any
    (show (exec step { callbacks := ⟨true, false⟩ } [.stop, .start]).any
      (fun s => s.start = .returned) = true by decide +kernel)
  have hret : s.start = .returned := of_decide_eq_true htest
  exact ⟨s, hrun, hret, (start_blocks ⟨true, false⟩ [.stop, .start] s hrun hret).1⟩

end FileWatcher

end CPlayground.Monitor
