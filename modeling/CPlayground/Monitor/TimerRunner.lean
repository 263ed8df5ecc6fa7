import CPlayground.Lib.Trace
import CPlayground.Monitor.Notifier
import Mathlib.Data.Rat.Floor
import Mathlib.Data.Finset.Basic
import Mathlib.Logic.Function.Basic

namespace CPlayground.Monitor

open CPlayground.Trace

/-!
# `tRunner`: the timer thread

`tRunner::post` allocates an id, marks it alive, pushes the task on a heap ordered by `runat` and
wakes or re-arms the timer; `tRunner::Run` collects the due tasks under the lock, runs them without
it, and then re-pushes or drops each of them and re-arms the timer.  `cancel` removes the mark.

One step of the model is one of: a mutex-protected block that touches shared data once, an eventfd
operation, a `timerfd_settime`, an access to the state word, a task call.  The two loops that `Run`
executes with the lock held are cut into their iterations, because `cancel` and the first half of
`post` only take `mark_mtx_` and may fall between them.  Times are exact numbers of milliseconds.

The timerfd is polled by the listener's loop: when it expires and the runner is in state `WORK`, the
loop reads it (`readTimer`) and calls `post(tTask::Nil)` (`forward`).
-/

/-! ### `Timer` -/

namespace Timer

/-- `Timer::kLeastDuration`, in milliseconds. -/
def kLeastDuration : Nat := 10

/-- `Timer::Config`. -/
structure Config where
  interval_second : UInt32
  interval_millisecond : UInt32
  value_second : UInt32
  value_millisecond : UInt32

/-- `SETTIMESPEC`: seconds and nanoseconds, normalised; the result in nanoseconds. -/
def timespec (x y : UInt32) : Nat :=
  if 1000 ≤ y.toNat then (x.toNat + y.toNat / 1000) % 2 ^ 32 * 10 ^ 9 + y.toNat % 1000 * 10 ^ 6
  else x.toNat * 10 ^ 9 + y.toNat * 10 ^ 6

/-- `Config{0, 0, 0, ms}`. -/
def Config.millis (ms : UInt32) : Config := ⟨0, 0, 0, ms⟩

/-- `Config{}`. -/
def Config.zero : Config := ⟨0, 0, 0, 0⟩

end Timer

/-- A timerfd: the armed expiry, the interval in nanoseconds, and whether an expiry is unread. -/
structure Timer where
  expiry : Option ℚ
  interval : Nat
  expired : Bool

namespace Timer

/-- `Timer::reset`: `timerfd_settime` with a relative value; zero disarms.  Setting the timer
    discards an unread expiry. -/
def reset (cfg : Config) (clock : ℚ) : Timer where
  expiry :=
    if timespec cfg.value_second cfg.value_millisecond = 0 then none
    else some (clock + timespec cfg.value_second cfg.value_millisecond / 10 ^ 6)
  interval := timespec cfg.interval_second cfg.interval_millisecond
  expired := false

/-- The expiry `x` passes. -/
def expire (t : Timer) (x : ℚ) : Timer where
  expiry := if t.interval = 0 then none else some (x + t.interval / 10 ^ 6)
  interval := t.interval
  expired := true

end Timer

/-! ### The runner -/

def TIMERTASK_ONCE : Int32 := 0
def TIMERTASK_REPEATED : Int32 := 1

/-- `tTask`.  `callable` says that `fn` or `closure` is set, `dispose` that the callback is. -/
structure TTask where
  id : Int
  runat : ℚ
  duration : UInt32
  type : Int32
  callable : Bool
  dispose : Bool
  deriving DecidableEq

/-- `(type & kTypeMask) == TIMERTASK_REPEATED`. -/
def TTask.repeated (t : TTask) : Bool := t.type &&& 0xff == TIMERTASK_REPEATED

namespace TRunner

/-- Where the thread of `tRunner::Run` stands. -/
inductive RunPc where
  | start
  /-- Blocked in `poll`. -/
  | poll
  /-- The notifications are retrieved; the lock is not taken. -/
  | retrieved
  /-- Lock held, first clock reading `now`, collecting the due tasks. -/
  | collecting (now : ℚ) (batch : List TTask)
  /-- Lock released; `todo` are the tasks of the batch still to run. -/
  | running (batch todo : List TTask)
  /-- Second clock reading done, lock not taken yet. -/
  | stamped (now : ℚ) (batch : List TTask)
  /-- Lock held; `todo` are the tasks still to be pushed back or dropped. -/
  | finishing (now : ℚ) (todo : List TTask)
  /-- Lock held, heap empty, timer disarmed; the state is still to be set. -/
  | idling
  /-- Lock released; about to wake up again or to arm the timer for `top`. -/
  | arming (now : ℚ) (top : TTask)
  | exited
  deriving DecidableEq

/-- `mtx_` is free for the posting threads. -/
def RunPc.lockFree : RunPc → Bool
  | .collecting .. | .finishing .. | .idling => false
  | _ => true

/-- Where a thread that calls `tRunner::post` stands. -/
inductive PostPc where
  /-- Not inside `post`. -/
  | outside
  /-- The id is allocated; the mark is not inserted. -/
  | marking (t : TTask)
  | pushing (t : TTask)
  /-- The task is in the heap; the duration and the state are to be tested. -/
  | testing (t : TTask)
  /-- The runner was idle: the timer is to be set, ... -/
  | first (t : TTask)
  /-- ... and then the state. -/
  | working (t : TTask)
  /-- The runner was not idle: the top of the heap is to be compared. -/
  | peeking (t : TTask)
  | arming (t : TTask)
  /-- `top()` was called on an empty heap. -/
  | undefined
  deriving DecidableEq

/-- A callback of a task. -/
inductive Event where
  | ran (t : TTask)
  | disposed (t : TTask)

/-- The task a callback belongs to. -/
def Event.task : Event → TTask
  | .ran t => t
  | .disposed t => t

end TRunner

open TRunner (RunPc PostPc Event)

/-- A `tRunner` with its timerfd, the clock and the threads that use it.  `log` records the
    callbacks in order, `returned` the ids `post` has returned. -/
structure TRunner where
  state : State
  notifier : Notifier
  /-- `tasks_`, in any order. -/
  tasks : List TTask
  /-- `id_`. -/
  id : Int
  /-- `marks_`. -/
  marks : Finset Int
  timer : Timer
  clock : ℚ
  /-- The loop has read the timerfd and is about to post `Nil`. -/
  forwarding : Bool
  run : RunPc
  posts : Tid → PostPc
  returned : List Int
  log : List Event

namespace TRunner

/-- A new runner; its thread has not entered `Run`. -/
def init (clock : ℚ) : TRunner where
  state := .NOTHINGNESS
  notifier := .new
  tasks := []
  id := 0
  marks := ∅
  timer := ⟨none, 0, false⟩
  clock := clock
  forwarding := false
  run := .start
  posts := fun _ => .outside
  returned := []
  log := []

/-- `__sync_add_and_fetch(&id_, 1)` on a 32-bit `int`. -/
def nextId (id : Int) : Int := Int.bmod (id + 1) (2 ^ 32)

/-- `t` may be what `std::priority_queue::top` returns: an element of minimal `runat`. -/
def IsTop (tasks : List TTask) (t : TTask) : Prop :=
  t ∈ tasks ∧ ∀ u ∈ tasks, t.runat ≤ u.runat

instance (tasks : List TTask) (t : TTask) : Decidable (IsTop tasks t) :=
  inferInstanceAs (Decidable (_ ∧ _))

/-- `unsigned(top.runat - now)`: truncated, and reduced to 32 bits. -/
def remaining (top : TTask) (now : ℚ) : UInt32 := UInt32.ofNat ⌊top.runat - now⌋₊

/-- The steps of a thread inside `tRunner::post`, after the id is allocated. -/
inductive PostAct where
  | mark
  | push
  | test
  | armFirst
  | setWork
  | peek (top : TTask)
  | peekEmpty
  | armTop

/-- The steps of the thread inside `tRunner::Run`. -/
inductive RunAct where
  | begin
  | interrupted
  | retrieve
  | lock
  | collect (top : TTask)
  | unlock
  | runTask
  | stamp
  | relock
  | finish
  | disarm
  | idle
  | peekTop (top : TTask)
  | rearm

/-- A step of the system: of a thread that posts, of `Run`, of `cancel` and `stop`, of the loop that
    polls the timerfd, or of the clock. -/
inductive Act where
  /-- Thread `k` calls `post`: it allocates the id, or just notifies for a task that cannot be
      called. -/
  | call (k : Tid) (task : TTask)
  | post (k : Tid) (a : PostAct)
  | cancel (id : Int)
  | run (a : RunAct)
  | tick (now : ℚ)
  | expire
  | readTimer
  | forward
  | stop

/-- The steps of `tRunner::post` after the id is allocated. -/
def stepPost (s : TRunner) (k : Tid) : PostAct → Option TRunner
  | .mark =>
    match s.posts k with
    | .marking t => some { s with marks := insert t.id s.marks,
                                  posts := Function.update s.posts k (.pushing t) }
    | _ => none
  | .push =>
    match s.posts k with
    | .pushing t =>
      -- `mtx_` has to be free
      if s.run.lockFree then
        some { s with tasks := t :: s.tasks, posts := Function.update s.posts k (.testing t) }
      else none
    | _ => none
  | .test =>
    match s.posts k with
    | .testing t =>
      -- run immediately, the first task, check top task
      if t.duration.toNat < Timer.kLeastDuration then
        (s.notifier.notify Notifier.kNotifyOne).map fun n =>
          { s with notifier := n, posts := Function.update s.posts k .outside,
                   returned := s.returned ++ [t.id] }
      else if s.state = .IDLE then some { s with posts := Function.update s.posts k (.first t) }
      else some { s with posts := Function.update s.posts k (.peeking t) }
    | _ => none
  | .armFirst =>
    match s.posts k with
    | .first t => some { s with timer := Timer.reset (.millis t.duration) s.clock,
                                posts := Function.update s.posts k (.working t) }
    | _ => none
  | .setWork =>
    match s.posts k with
    | .working t => some { s with state := .WORK, posts := Function.update s.posts k .outside,
                                  returned := s.returned ++ [t.id] }
    | _ => none
  | .peek top =>
    match s.posts k with
    | .peeking t =>
      if s.run.lockFree ∧ IsTop s.tasks top then
        if top.runat = t.runat then some { s with posts := Function.update s.posts k (.arming t) }
        else some { s with posts := Function.update s.posts k .outside,
                           returned := s.returned ++ [t.id] }
      else none
    | _ => none
  | .peekEmpty =>
    match s.posts k with
    | .peeking _ =>
      -- `Run` has emptied the heap since the push, and `top()` of an empty heap is undefined
      if s.run.lockFree ∧ s.tasks = [] then
        some { s with posts := Function.update s.posts k .undefined }
      else none
    | _ => none
  | .armTop =>
    match s.posts k with
    | .arming t => some { s with timer := Timer.reset (.millis t.duration) s.clock,
                                 posts := Function.update s.posts k .outside,
                                 returned := s.returned ++ [t.id] }
    | _ => none

/-- The steps of `tRunner::Run`. -/
def stepRun (s : TRunner) : RunAct → Option TRunner
  | .begin =>
    match s.run with
    | .start => some { s with state := .IDLE, run := .poll }
    | _ => none
  | .interrupted =>
    match s.run with
    | .poll => some s
    | _ => none
  | .retrieve =>
    match s.run with
    | .poll =>
      if s.notifier.value = 0 then none
      else if Notifier.kNotifyQuit ≤ s.notifier.retrieve.1 then
        some { s with notifier := s.notifier.retrieve.2, run := .exited }
      else some { s with notifier := s.notifier.retrieve.2, run := .retrieved }
    | _ => none
  | .lock =>
    match s.run with
    | .retrieved => some { s with run := .collecting s.clock [] }
    | _ => none
  | .collect top =>
    match s.run with
    | .collecting now batch =>
      if IsTop s.tasks top ∧ top.runat < now + Timer.kLeastDuration then
        if top.id ∈ s.marks then
          some { s with tasks := s.tasks.erase top, run := .collecting now (batch ++ [top]) }
        -- the task is canceled, clear it
        else if top.dispose then
          some { s with tasks := s.tasks.erase top, log := s.log ++ [.disposed top] }
        else some { s with tasks := s.tasks.erase top }
      else none
    | _ => none
  | .unlock =>
    match s.run with
    | .collecting now batch =>
      -- the heap is empty, or its top is not due
      if ∀ u ∈ s.tasks, now + Timer.kLeastDuration ≤ u.runat then
        some { s with run := .running batch batch }
      else none
    | _ => none
  | .runTask =>
    match s.run with
    | .running batch (t :: todo) =>
      some { s with run := .running batch todo, log := s.log ++ [.ran t] }
    | _ => none
  | .stamp =>
    match s.run with
    | .running batch [] => some { s with run := .stamped s.clock batch }
    | _ => none
  | .relock =>
    match s.run with
    | .stamped now batch => some { s with run := .finishing now batch }
    | _ => none
  | .finish =>
    match s.run with
    | .finishing now (t :: todo) =>
      if t.repeated then
        some { s with tasks := { t with runat := now + t.duration.toNat } :: s.tasks,
                      run := .finishing now todo }
      -- drop once task
      else if t.dispose then
        some { s with marks := s.marks.erase t.id, log := s.log ++ [.disposed t],
                      run := .finishing now todo }
      else some { s with marks := s.marks.erase t.id, run := .finishing now todo }
    | _ => none
  | .disarm =>
    match s.run with
    | .finishing _ [] =>
      if s.tasks = [] then some { s with timer := Timer.reset .zero s.clock, run := .idling }
      else none
    | _ => none
  | .idle =>
    match s.run with
    | .idling => some { s with state := .IDLE, run := .poll }
    | _ => none
  | .peekTop top =>
    match s.run with
    | .finishing now [] =>
      if IsTop s.tasks top then some { s with run := .arming now top } else none
    | _ => none
  | .rearm =>
    match s.run with
    | .arming now top =>
      -- `now` was read before the batch was finished; the timer counts from the present
      if top.runat < now + Timer.kLeastDuration then
        (s.notifier.notify Notifier.kNotifyOne).map fun n =>
          { s with notifier := n, run := .poll }
      else
        some { s with timer := Timer.reset (.millis (remaining top now)) s.clock, run := .poll }
    | _ => none

/-- One atomic step; `none` where the thread waits for a lock or in `poll`. -/
def step (s : TRunner) : Act → Option TRunner
  | .call k task =>
    match s.posts k with
    | .outside =>
      -- a task is constructed at or before the moment it is posted
      if task.runat ≤ s.clock + task.duration.toNat then
        if task.callable then
          some { s with id := nextId s.id,
                        posts := Function.update s.posts k
                          (.marking { task with id := nextId s.id }) }
        -- `tTask::Nil` only wakes `Run`
        else (s.notifier.notify Notifier.kNotifyOne).map fun n => { s with notifier := n }
      else none
    | _ => none
  | .cancel id =>
    if 0 < id ∧ id < s.id then some { s with marks := s.marks.erase id } else some s
  | .tick now => if s.clock ≤ now then some { s with clock := now } else none
  | .expire =>
    match s.timer.expiry with
    | some x => if x ≤ s.clock then some { s with timer := s.timer.expire x } else none
    | none => none
  | .readTimer =>
    -- the loop looks at the timerfd only while the runner is in state `WORK`
    if s.timer.expired ∧ s.state = .WORK then
      some { s with timer := { s.timer with expired := false }, forwarding := true }
    else none
  | .forward =>
    if s.forwarding then
      (s.notifier.notify Notifier.kNotifyOne).map fun n =>
        { s with notifier := n, forwarding := false }
    else none
  | .stop =>
    (s.notifier.notify Notifier.kNotifyQuit).map fun n =>
      { s with notifier := n, state := .TERMINATED }
  | .post k a => s.stepPost k a
  | .run a => s.stepRun a

/-! ### What a step can do -/

variable {s s' : TRunner}

/-- The transitions of a thread inside `post`. -/
inductive PostMove (s : TRunner) (k : Tid) : PostAct → TRunner → Prop where
  | marked (t : TTask) (hpc : s.posts k = .marking t) :
      PostMove s k .mark { s with marks := insert t.id s.marks,
                                  posts := Function.update s.posts k (.pushing t) }
  | pushed (t : TTask) (hpc : s.posts k = .pushing t) (hlock : s.run.lockFree = true) :
      PostMove s k .push { s with tasks := t :: s.tasks,
                                  posts := Function.update s.posts k (.testing t) }
  | immediate (t : TTask) (hpc : s.posts k = .testing t) :
      PostMove s k .test { s with notifier := ⟨Notifier.kNotifyOne :: s.notifier.unread⟩,
                                  posts := Function.update s.posts k .outside,
                                  returned := s.returned ++ [t.id] }
  | sawIdle (t : TTask) (hpc : s.posts k = .testing t)
      (hlong : Timer.kLeastDuration ≤ t.duration.toNat) :
      PostMove s k .test { s with posts := Function.update s.posts k (.first t) }
  | sawBusy (t : TTask) (hpc : s.posts k = .testing t)
      (hlong : Timer.kLeastDuration ≤ t.duration.toNat) :
      PostMove s k .test { s with posts := Function.update s.posts k (.peeking t) }
  | armedFirst (t : TTask) (hpc : s.posts k = .first t) :
      PostMove s k .armFirst { s with timer := Timer.reset (.millis t.duration) s.clock,
                                      posts := Function.update s.posts k (.working t) }
  | worked (t : TTask) (hpc : s.posts k = .working t) :
      PostMove s k .setWork { s with state := .WORK, posts := Function.update s.posts k .outside,
                                     returned := s.returned ++ [t.id] }
  | isTop (t top : TTask) (hpc : s.posts k = .peeking t) (htop : IsTop s.tasks top)
      (heq : top.runat = t.runat) :
      PostMove s k (.peek top) { s with posts := Function.update s.posts k (.arming t) }
  | notTop (t top : TTask) (hpc : s.posts k = .peeking t) (htop : IsTop s.tasks top)
      (hne : top.runat ≠ t.runat) :
      PostMove s k (.peek top) { s with posts := Function.update s.posts k .outside,
                                        returned := s.returned ++ [t.id] }
  | noTop (t : TTask) (hpc : s.posts k = .peeking t) (hempty : s.tasks = []) :
      PostMove s k .peekEmpty { s with posts := Function.update s.posts k .undefined }
  | armedTop (t : TTask) (hpc : s.posts k = .arming t) :
      PostMove s k .armTop { s with timer := Timer.reset (.millis t.duration) s.clock,
                                    posts := Function.update s.posts k .outside,
                                    returned := s.returned ++ [t.id] }

/-- The transitions of `Run`. -/
inductive RunMove (s : TRunner) : RunAct → TRunner → Prop where
  | begun (hpc : s.run = .start) : RunMove s .begin { s with state := .IDLE, run := .poll }
  | interrupted : RunMove s .interrupted s
  | quit (hpc : s.run = .poll) : RunMove s .retrieve { s with notifier := .new, run := .exited }
  | retrieved (hpc : s.run = .poll) :
      RunMove s .retrieve { s with notifier := .new, run := .retrieved }
  | locked (hpc : s.run = .retrieved) : RunMove s .lock { s with run := .collecting s.clock [] }
  | taken (now : ℚ) (batch : List TTask) (top : TTask) (hpc : s.run = .collecting now batch)
      (htop : IsTop s.tasks top) (hdue : top.runat < now + Timer.kLeastDuration)
      (halive : top.id ∈ s.marks) :
      RunMove s (.collect top)
        { s with tasks := s.tasks.erase top, run := .collecting now (batch ++ [top]) }
  | cleared (now : ℚ) (batch : List TTask) (top : TTask) (hpc : s.run = .collecting now batch)
      (htop : IsTop s.tasks top) (hdue : top.runat < now + Timer.kLeastDuration)
      (hdead : top.id ∉ s.marks) :
      RunMove s (.collect top)
        { s with tasks := s.tasks.erase top,
                 log := s.log ++ if top.dispose then [.disposed top] else [] }
  | unlocked (now : ℚ) (batch : List TTask) (hpc : s.run = .collecting now batch)
      (hdue : ∀ u ∈ s.tasks, now + Timer.kLeastDuration ≤ u.runat) :
      RunMove s .unlock { s with run := .running batch batch }
  | ranTask (batch todo : List TTask) (t : TTask) (hpc : s.run = .running batch (t :: todo)) :
      RunMove s .runTask { s with run := .running batch todo, log := s.log ++ [.ran t] }
  | stamped (batch : List TTask) (hpc : s.run = .running batch []) :
      RunMove s .stamp { s with run := .stamped s.clock batch }
  | relocked (now : ℚ) (batch : List TTask) (hpc : s.run = .stamped now batch) :
      RunMove s .relock { s with run := .finishing now batch }
  | repushed (now : ℚ) (t : TTask) (todo : List TTask) (hpc : s.run = .finishing now (t :: todo))
      (hrep : t.repeated = true) :
      RunMove s .finish { s with tasks := { t with runat := now + t.duration.toNat } :: s.tasks,
                                 run := .finishing now todo }
  | dropped (now : ℚ) (t : TTask) (todo : List TTask) (hpc : s.run = .finishing now (t :: todo))
      (hrep : t.repeated = false) :
      RunMove s .finish { s with marks := s.marks.erase t.id,
                                 log := s.log ++ (if t.dispose then [.disposed t] else []),
                                 run := .finishing now todo }
  | disarmed (now : ℚ) (hpc : s.run = .finishing now []) (hempty : s.tasks = []) :
      RunMove s .disarm { s with timer := Timer.reset .zero s.clock, run := .idling }
  | idled (hpc : s.run = .idling) : RunMove s .idle { s with state := .IDLE, run := .poll }
  | peeked (now : ℚ) (top : TTask) (hpc : s.run = .finishing now []) (htop : IsTop s.tasks top) :
      RunMove s (.peekTop top) { s with run := .arming now top }
  | again (now : ℚ) (top : TTask) (hpc : s.run = .arming now top) :
      RunMove s .rearm
        { s with notifier := ⟨Notifier.kNotifyOne :: s.notifier.unread⟩, run := .poll }
  | rearmed (now : ℚ) (top : TTask) (hpc : s.run = .arming now top)
      (hdue : now + Timer.kLeastDuration ≤ top.runat) :
      RunMove s .rearm
        { s with timer := Timer.reset (.millis (remaining top now)) s.clock, run := .poll }

/-- The transitions of the whole system.  The invariants of the later modules are proved by cases on
    them, and on those of `post` and `Run`. -/
inductive Move (s : TRunner) : Act → TRunner → Prop where
  | called (k : Tid) (task : TTask) (hpc : s.posts k = .outside)
      (hrunat : task.runat ≤ s.clock + task.duration.toNat) (hcall : task.callable = true) :
      Move s (.call k task)
        { s with id := nextId s.id,
                 posts := Function.update s.posts k (.marking { task with id := nextId s.id }) }
  | woken (k : Tid) (task : TTask) (hcall : task.callable = false) :
      Move s (.call k task) { s with notifier := ⟨Notifier.kNotifyOne :: s.notifier.unread⟩ }
  | post (k : Tid) (a : PostAct) (s' : TRunner) (h : PostMove s k a s') : Move s (.post k a) s'
  | run (a : RunAct) (s' : TRunner) (h : RunMove s a s') : Move s (.run a) s'
  | cancelled (id : Int) (hrange : 0 < id ∧ id < s.id) :
      Move s (.cancel id) { s with marks := s.marks.erase id }
  | ignored (id : Int) (hrange : ¬ (0 < id ∧ id < s.id)) : Move s (.cancel id) s
  | ticked (now : ℚ) (hle : s.clock ≤ now) : Move s (.tick now) { s with clock := now }
  | expired (x : ℚ) (harm : s.timer.expiry = some x) :
      Move s .expire { s with timer := s.timer.expire x }
  | timerRead (hexp : s.timer.expired = true) :
      Move s .readTimer { s with timer := { s.timer with expired := false }, forwarding := true }
  | forwarded :
      Move s .forward { s with notifier := ⟨Notifier.kNotifyOne :: s.notifier.unread⟩,
                               forwarding := false }
  | stopped :
      Move s .stop { s with notifier := ⟨Notifier.kNotifyQuit :: s.notifier.unread⟩,
                            state := .TERMINATED }

/-- **What a step of `post` can do**, branch by branch; the later modules never unfold
    `stepPost`. -/
theorem postMove_of_step {k : Tid} {a : PostAct} (h : s.stepPost k a = some s') :
    PostMove s k a s' := by
  cases a with
  | mark =>
    simp only [stepPost] at h
    split at h <;> cases h
    rename_i t hpc
    exact .marked t hpc
  | push =>
    simp only [stepPost] at h
    split at h
    · rename_i t hpc
      simp only [Option.ite_none_right_eq_some] at h
      obtain ⟨hlock, h⟩ := h
      cases h
      exact .pushed t hpc hlock
    · cases h
  | test =>
    simp only [stepPost] at h
    split at h
    · rename_i t hpc
      -- a task that is due at once wakes the runner; else the state decides
      split at h
      · simp only [Option.map_eq_some_iff, Notifier.notify_eq_some] at h
        obtain ⟨n, ⟨-, rfl⟩, rfl⟩ := h
        exact .immediate t hpc
      · rename_i hlong
        split at h <;> cases h
        · exact .sawIdle t hpc (not_lt.mp hlong)
        · exact .sawBusy t hpc (not_lt.mp hlong)
    · cases h
  | armFirst =>
    simp only [stepPost] at h
    split at h <;> cases h
    rename_i t hpc
    exact .armedFirst t hpc
  | setWork =>
    simp only [stepPost] at h
    split at h <;> cases h
    rename_i t hpc
    exact .worked t hpc
  | peek top =>
    simp only [stepPost] at h
    split at h
    · rename_i t hpc
      simp only [Option.ite_none_right_eq_some] at h
      obtain ⟨⟨-, htop⟩, h⟩ := h
      -- the task is the next one of the heap, or not
      split at h <;> cases h
      · rename_i heq
        exact .isTop t top hpc htop heq
      · rename_i hne
        exact .notTop t top hpc htop hne
    · cases h
  | peekEmpty =>
    simp only [stepPost] at h
    split at h
    · rename_i t hpc
      simp only [Option.ite_none_right_eq_some] at h
      obtain ⟨⟨-, hempty⟩, h⟩ := h
      cases h
      exact .noTop t hpc hempty
    · cases h
  | armTop =>
    simp only [stepPost] at h
    split at h <;> cases h
    rename_i t hpc
    exact .armedTop t hpc

/-- **What a step of `Run` can do**, branch by branch, with the tests of the source as hypotheses of
    the outcome. -/
theorem runMove_of_step {a : RunAct} (h : s.stepRun a = some s') : RunMove s a s' := by
  cases a with
  | begin =>
    simp only [stepRun] at h
    split at h <;> cases h
    rename_i hpc
    exact .begun hpc
  | interrupted =>
    simp only [stepRun] at h
    split at h <;> cases h
    exact .interrupted
  | retrieve =>
    simp only [stepRun] at h
    split at h
    · rename_i hpc
      simp only [Option.ite_none_left_eq_some] at h
      obtain ⟨-, h⟩ := h
      -- the event decides between the end and a round
      by_cases hq : Notifier.kNotifyQuit ≤ s.notifier.retrieve.1
      · rw [if_pos hq] at h; cases h; exact .quit hpc
      · rw [if_neg hq] at h; cases h; exact .retrieved hpc
    · cases h
  | lock =>
    simp only [stepRun] at h
    split at h <;> cases h
    rename_i hpc
    exact .locked hpc
  | collect top =>
    simp only [stepRun] at h
    split at h
    · rename_i now batch hpc
      simp only [Option.ite_none_right_eq_some] at h
      obtain ⟨⟨htop, hdue⟩, h⟩ := h
      -- a task without a mark was cancelled
      by_cases halive : top.id ∈ s.marks
      · rw [if_pos halive] at h; cases h
        exact .taken now batch top hpc htop hdue halive
      · rw [if_neg halive] at h
        have hmove := RunMove.cleared now batch top hpc htop hdue halive
        -- `dispose` only decides what is logged
        by_cases hd : top.dispose = true
        · rw [if_pos hd] at h hmove; cases h; exact hmove
        · rw [if_neg hd] at h hmove; cases h; simpa using hmove
    · cases h
  | unlock =>
    simp only [stepRun] at h
    split at h
    · rename_i now batch hpc
      simp only [Option.ite_none_right_eq_some] at h
      obtain ⟨hdue, h⟩ := h
      cases h
      exact .unlocked now batch hpc hdue
    · cases h
  | runTask =>
    simp only [stepRun] at h
    split at h <;> cases h
    rename_i batch t todo hpc
    exact .ranTask batch todo t hpc
  | stamp =>
    simp only [stepRun] at h
    split at h <;> cases h
    rename_i batch hpc
    exact .stamped batch hpc
  | relock =>
    simp only [stepRun] at h
    split at h <;> cases h
    rename_i now batch hpc
    exact .relocked now batch hpc
  | finish =>
    simp only [stepRun] at h
    split at h
    · rename_i now t todo hpc
      by_cases hrep : t.repeated = true
      · rw [if_pos hrep] at h; cases h
        exact .repushed now t todo hpc hrep
      · rw [if_neg hrep] at h
        have hmove := RunMove.dropped now t todo hpc (by simpa using hrep)
        -- here, too
        by_cases hd : t.dispose = true
        · rw [if_pos hd] at h hmove; cases h; exact hmove
        · rw [if_neg hd] at h hmove; cases h; simpa using hmove
    · cases h
  | disarm =>
    simp only [stepRun] at h
    split at h
    · rename_i now hpc
      simp only [Option.ite_none_right_eq_some] at h
      obtain ⟨hempty, h⟩ := h
      cases h
      exact .disarmed now hpc hempty
    · cases h
  | idle =>
    simp only [stepRun] at h
    split at h <;> cases h
    rename_i hpc
    exact .idled hpc
  | peekTop top =>
    simp only [stepRun] at h
    split at h
    · rename_i now hpc
      simp only [Option.ite_none_right_eq_some] at h
      obtain ⟨htop, h⟩ := h
      cases h
      exact .peeked now top hpc htop
    · cases h
  | rearm =>
    simp only [stepRun] at h
    split at h
    · rename_i now top hpc
      -- the next task is due by now: another round without the timer
      split at h
      · simp only [Option.map_eq_some_iff, Notifier.notify_eq_some] at h
        obtain ⟨n, ⟨-, rfl⟩, rfl⟩ := h
        exact .again now top hpc
      · rename_i hdue
        cases h
        exact .rearmed now top hpc (not_lt.mp hdue)
    · cases h

/-- Every enabled step is one of the transitions; those of the threads are the relations above. -/
theorem move_of_step {a : Act} (h : s.step a = some s') : Move s a s' := by
  cases a with
  | call k task =>
    simp only [step] at h
    split at h
    · rename_i hpc
      simp only [Option.ite_none_right_eq_some] at h
      obtain ⟨hrunat, h⟩ := h
      -- a task with an empty closure only wakes the runner
      split at h
      · rename_i hcall
        cases h
        exact .called k task hpc hrunat hcall
      · rename_i hcall
        simp only [Option.map_eq_some_iff, Notifier.notify_eq_some] at h
        obtain ⟨n, ⟨-, rfl⟩, rfl⟩ := h
        exact .woken k task (by simpa using hcall)
    · cases h
  | post k a => exact .post k a s' (postMove_of_step h)
  | run a => exact .run a s' (runMove_of_step h)
  | cancel id =>
    simp only [step] at h
    split at h <;> cases h
    · rename_i hrange
      exact .cancelled id hrange
    · rename_i hrange
      exact .ignored id hrange
  | tick now =>
    simp only [step, Option.ite_none_right_eq_some] at h
    obtain ⟨hle, h⟩ := h
    cases h
    exact .ticked now hle
  | expire =>
    simp only [step] at h
    split at h
    · rename_i x harm
      simp only [Option.ite_none_right_eq_some] at h
      obtain ⟨-, h⟩ := h
      cases h
      exact .expired x harm
    · cases h
  | readTimer =>
    simp only [step, Option.ite_none_right_eq_some] at h
    obtain ⟨⟨hexp, -⟩, h⟩ := h
    cases h
    exact .timerRead hexp
  | forward =>
    simp only [step, Option.ite_none_right_eq_some, Option.map_eq_some_iff,
      Notifier.notify_eq_some] at h
    obtain ⟨-, n, ⟨-, rfl⟩, rfl⟩ := h
    exact .forwarded
  | stop =>
    simp only [step, Option.map_eq_some_iff, Notifier.notify_eq_some] at h
    obtain ⟨n, ⟨-, rfl⟩, rfl⟩ := h
    exact .stopped

end TRunner

end CPlayground.Monitor
