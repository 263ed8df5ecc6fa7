import CPlayground.Lib.Trace
import CPlayground.Monitor.Notifier
import Mathlib.Data.Multiset.Basic
import Mathlib.Data.List.Infix

namespace CPlayground.Monitor

open CPlayground.Trace

/-!
# `TaskRunner`: a deque of tasks behind an eventfd

`TaskRunner::post` pushes a task under the lock and then notifies the eventfd with `1`;
`TaskRunner::Run` polls, reads the coalesced count `e`, takes `e` tasks under the lock and runs
them.  The locked block, the eventfd operations and each task call are one step each; any number
of threads may be between their push and their notification.

* `posted_of_exec` — the history of the posted tasks is that of the pushes.
* `taskRunner_exactly_once` — the counting invariant: `Run` never pops an empty deque, and at rest
  every posted task has run once.
* `taskRunner_in_order` — with one posting thread the tasks run in posting order, provided that
  the deque never holds two tasks when a batch is collected: `post` pushes at the same end from
  which `Run` takes.
-/

variable {τ : Type}

/-- A posted task: `fn` with its argument, or a null `fn`. -/
structure Task (τ : Type) where
  fn : Option τ

namespace TaskRunner

/-- Where the thread of `TaskRunner::Run` stands: between two accesses to the eventfd, the lock and
    the tasks. -/
inductive RunPc (τ : Type) where
  /-- Blocked in `poll`. -/
  | poll
  /-- `e` notifications retrieved, the lock not taken yet. -/
  | retrieved (e : Nat)
  /-- The batch is collected; these tasks are still to run. -/
  | running (tasks : List τ)
  /-- `front()` or `pop_front()` was called on an empty deque. -/
  | undefined
  /-- The loop was left. -/
  | exited

end TaskRunner

open TaskRunner (RunPc)

/-- A `TaskRunner` with the threads that use it.  `posted` and `ran` record the history. -/
structure TaskRunner (τ : Type) where
  state : State
  notifier : Notifier
  /-- `tasks_`, front first. -/
  tasks : List τ
  run : RunPc τ
  /-- Threads inside `post`, between the push and the notification. -/
  posting : List Tid
  /-- `Runner::stop` was called. -/
  stopped : Bool
  posted : List τ
  ran : List τ

namespace TaskRunner

/-- A runner whose thread has just entered its loop. -/
def init : TaskRunner τ where
  state := .IDLE
  notifier := .new
  tasks := []
  run := .poll
  posting := []
  stopped := false
  posted := []
  ran := []

/-- The loop `while (e--)` of `Run`: take `e` tasks from the front.  `none` when the deque runs
    empty first. -/
def popFront : Nat → List τ → Option (List τ × List τ)
  | 0,     tasks      => some ([], tasks)
  | _ + 1, []         => none
  | e + 1, t :: tasks => (popFront e tasks).map fun p => (t :: p.1, p.2)

/-- The steps of the posting threads and of `Run`.  A push and the notification behind it are two
    steps, and so are the read of the counter and the collection of the batch. -/
inductive Act (τ : Type) where
  /-- `post`, first half: the locked push. -/
  | push (tid : Tid) (task : Task τ)
  /-- `post`, second half. -/
  | notify (tid : Tid)
  /-- `poll` was interrupted; the `POLL` macro continues. -/
  | interrupted
  | retrieve
  | collect
  | runTask
  /-- The batch is done: back to `IDLE` and to `poll`. -/
  | rest
  | stop

/-- `TaskRunner::post`, `TaskRunner::Run` and `Runner::stop`, one atomic step at a time; `none`
    where the thread blocks. -/
def step (r : TaskRunner τ) : Act τ → Option (TaskRunner τ)
  | .push tid task =>
    if tid ∈ r.posting then none
    else match task.fn with
      | none => some r
      | some t => some { r with tasks := t :: r.tasks, posting := tid :: r.posting,
                                posted := r.posted ++ [t] }
  | .notify tid =>
    if tid ∈ r.posting then
      (r.notifier.notify Notifier.kNotifyOne).map fun n =>
        { r with notifier := n, posting := r.posting.erase tid }
    else none
  | .interrupted =>
    match r.run with
    | .poll => some r
    | _ => none
  | .retrieve =>
    match r.run with
    | .poll =>
      if r.notifier.value = 0 then none
      else if Notifier.kNotifyQuit ≤ r.notifier.retrieve.1 then
        some { r with notifier := r.notifier.retrieve.2, run := .exited }
      else
        some { r with notifier := r.notifier.retrieve.2, run := .retrieved r.notifier.retrieve.1 }
    | _ => none
  | .collect =>
    match r.run with
    | .retrieved e =>
      match popFront e r.tasks with
      | some (batch, tasks) => some { r with tasks := tasks, run := .running batch, state := .WORK }
      | none => some { r with run := .undefined }
    | _ => none
  | .runTask =>
    match r.run with
    | .running (t :: tasks) => some { r with run := .running tasks, ran := r.ran ++ [t] }
    | _ => none
  | .rest =>
    match r.run with
    | .running [] => some { r with run := .poll, state := .IDLE }
    | _ => none
  | .stop =>
    (r.notifier.notify Notifier.kNotifyQuit).map fun n =>
      { r with notifier := n, state := .TERMINATED, stopped := true }

/-! ### What a step can do -/

/-- The transitions of `step`, one per branch of the source. -/
inductive Move (r : TaskRunner τ) : Act τ → TaskRunner τ → Prop where
  | ignored (tid : Tid) (task : Task τ) (hfn : task.fn = none) : Move r (.push tid task) r
  | pushed (tid : Tid) (task : Task τ) (t : τ) (hfn : task.fn = some t) (hfree : tid ∉ r.posting) :
      Move r (.push tid task)
        { r with tasks := t :: r.tasks, posting := tid :: r.posting, posted := r.posted ++ [t] }
  | notified (tid : Tid) (hmem : tid ∈ r.posting) :
      Move r (.notify tid)
        { r with notifier := ⟨Notifier.kNotifyOne :: r.notifier.unread⟩,
                 posting := r.posting.erase tid }
  | interrupted : Move r .interrupted r
  | quit (hrun : r.run = .poll) : Move r .retrieve { r with notifier := .new, run := .exited }
  | retrieved (hrun : r.run = .poll) (hlt : r.notifier.value < Notifier.kNotifyQuit) :
      Move r .retrieve { r with notifier := .new, run := .retrieved r.notifier.value }
  | collected (e : Nat) (hrun : r.run = .retrieved e) (batch tasks : List τ)
      (hpop : popFront e r.tasks = some (batch, tasks)) :
      Move r .collect { r with tasks := tasks, run := .running batch, state := .WORK }
  | underflow (e : Nat) (hrun : r.run = .retrieved e) (hpop : popFront e r.tasks = none) :
      Move r .collect { r with run := .undefined }
  | ranTask (t : τ) (tasks : List τ) (hrun : r.run = .running (t :: tasks)) :
      Move r .runTask { r with run := .running tasks, ran := r.ran ++ [t] }
  | rested (hrun : r.run = .running []) : Move r .rest { r with run := .poll, state := .IDLE }
  | stopped (n : Notifier) :
      Move r .stop { r with notifier := n, state := .TERMINATED, stopped := true }

/-- Every enabled step is one of the transitions; a push of an empty task and a pop of an empty
    deque are among them. -/
theorem move_of_step {r r' : TaskRunner τ} {a : Act τ} (h : r.step a = some r') : Move r a r' := by
  cases a with
  | push tid task =>
    simp only [step, Option.ite_none_left_eq_some] at h
    obtain ⟨hfree, h⟩ := h
    -- an empty task is not pushed
    cases hfn : task.fn with
    | none => rw [hfn] at h; cases h; exact .ignored tid task hfn
    | some t => rw [hfn] at h; cases h; exact .pushed tid task t hfn hfree
  | notify tid =>
    simp only [step, Option.ite_none_right_eq_some, Option.map_eq_some_iff,
      Notifier.notify_eq_some] at h
    obtain ⟨hmem, n, ⟨-, rfl⟩, rfl⟩ := h
    exact .notified tid hmem
  | interrupted =>
    simp only [step] at h
    split at h <;> cases h
    exact .interrupted
  | retrieve =>
    simp only [step] at h
    split at h
    · rename_i hrun
      simp only [Option.ite_none_left_eq_some] at h
      obtain ⟨-, h⟩ := h
      -- the value that was read decides between the end and a batch
      by_cases hq : Notifier.kNotifyQuit ≤ r.notifier.retrieve.1
      · rw [if_pos hq] at h; cases h; exact .quit hrun
      · rw [if_neg hq] at h; cases h; exact .retrieved hrun (by simpa [Notifier.retrieve] using hq)
    · cases h
  | collect =>
    simp only [step] at h
    split at h
    · rename_i e hrun
      -- the batch is popped, or the deque is too short for it
      split at h
      · rename_i batch tasks hpop
        cases h; exact .collected e hrun batch tasks hpop
      · rename_i hpop
        cases h; exact .underflow e hrun hpop
    · cases h
  | runTask =>
    simp only [step] at h
    split at h
    · rename_i t tasks hrun
      cases h; exact .ranTask t tasks hrun
    · cases h
  | rest =>
    simp only [step] at h
    split at h
    · rename_i hrun
      cases h; exact .rested hrun
    · cases h
  | stop =>
    simp only [step, Option.map_eq_some_iff] at h
    obtain ⟨n, -, rfl⟩ := h
    exact .stopped n

/-! ### The counting invariant -/

/-- Notifications already read whose tasks are not popped yet. -/
def owed (r : TaskRunner τ) : Nat :=
  match r.run with
  | .retrieved e => e
  | _ => 0

/-- Tasks collected and not run yet. -/
def batch (r : TaskRunner τ) : List τ :=
  match r.run with
  | .running tasks => tasks
  | _ => []

/-- With enough tasks in the deque, popping `e` of them splits off its first `e` elements. -/
theorem popFront_eq_some (e : Nat) (tasks : List τ) (h : e ≤ tasks.length) :
    popFront e tasks = some (tasks.take e, tasks.drop e) := by
  induction e generalizing tasks with
  | zero => simp [popFront]
  | succ e ih =>
    cases tasks with
    | nil => simp at h
    | cons t tasks => simp [popFront, ih tasks (by simpa using h)]

/-- With fewer tasks than that, some pop meets an empty deque. -/
theorem popFront_eq_none (e : Nat) (tasks : List τ) (h : tasks.length < e) :
    popFront e tasks = none := by
  induction e generalizing tasks with
  | zero => simp at h
  | succ e ih =>
    cases tasks with
    | nil => rfl
    | cons t tasks => simp [popFront, ih tasks (by simpa using h)]

/-- What is popped and what is left make up the deque. -/
theorem popFront_append {e : Nat} {tasks popped rest : List τ}
    (h : popFront e tasks = some (popped, rest)) : popped ++ rest = tasks := by
  rcases le_or_gt e tasks.length with he | he
  · rw [popFront_eq_some e tasks he] at h
    cases h
    exact List.take_append_drop e tasks
  · rw [popFront_eq_none e tasks he] at h
    cases h

/-- The posted tasks that have not been run. -/
def waiting (r : TaskRunner τ) : List τ := r.batch ++ r.tasks

/-- No posted task is lost or run twice, with or without `stop`: what has run and what waits
    somewhere is, as a multiset, what was posted. -/
theorem kept_move {r r' : TaskRunner τ} {a : Act τ} (hk : (r.ran ++ r.waiting).Perm r.posted)
    (h : Move r a r') : (r'.ran ++ r'.waiting).Perm r'.posted := by
  cases h with
  | ignored => exact hk
  | pushed tid task t hfn hfree =>
    -- the new task goes to the end of `posted` and to the front of the deque
    have hcons : (t :: (r.ran ++ r.waiting)).Perm (t :: r.posted) := hk.cons t
    refine List.Perm.trans ?_ (hcons.trans (List.perm_append_singleton t r.posted).symm)
    simp only [waiting, batch, ← List.append_assoc]
    exact List.perm_middle
  | notified | interrupted | stopped => exact hk
  | quit hrun | retrieved hrun | underflow e hrun | rested hrun =>
    simpa [waiting, batch, hrun] using hk
  | collected e hrun batch' tasks hpop =>
    have happ := popFront_append hpop
    simpa [waiting, batch, hrun, happ] using hk
  | ranTask t tasks hrun => simpa [waiting, batch, hrun] using hk

/-- Only a push and the run of a task add to the histories. -/
theorem history_of_move {r r' : TaskRunner τ} {a : Act τ} (h : Move r a r')
    (hpush : ∀ tid task, a ≠ .push tid task) (hrun : a ≠ .runTask) :
    r'.ran = r.ran ∧ r'.posted = r.posted := by
  cases h with
  | ignored tid task | pushed tid task => exact absurd rfl (hpush tid task)
  | ranTask => exact absurd rfl hrun
  | notified | interrupted | quit | retrieved | collected | underflow | rested | stopped =>
    exact ⟨rfl, rfl⟩

/-- Only a push adds to the tasks that wait, and it adds its own task. -/
theorem mem_waiting_of_move {r r' : TaskRunner τ} {a : Act τ} {t : τ} (h : Move r a r')
    (ht : t ∈ r'.waiting) : t ∈ r.waiting ∨ ∃ tid, a = .push tid ⟨some t⟩ := by
  cases h with
  | ignored | notified | interrupted | stopped => exact .inl ht
  | pushed tid task u hfn hfree =>
    obtain ⟨fn⟩ := task
    cases hfn
    simp only [waiting, batch, List.mem_append, List.mem_cons] at ht ⊢
    rcases ht with ht | rfl | ht
    · exact .inl (.inl ht)
    · exact .inr ⟨tid, rfl⟩
    · exact .inl (.inr ht)
  | quit hrun | retrieved hrun | underflow e hrun | rested hrun =>
    exact .inl (by simpa [waiting, batch, hrun] using ht)
  | collected e hrun batch' tasks hpop =>
    have happ := popFront_append hpop
    refine .inl ?_
    simp only [waiting, batch, hrun, List.nil_append, ← happ] at ht ⊢
    exact ht
  | ranTask u tasks hrun =>
    refine .inl ?_
    simp only [waiting, batch, hrun, List.cons_append] at ht ⊢
    exact List.mem_cons_of_mem u ht

/-- Every task in the deque is accounted for by an unread notification, by one that was read and
    is still to be served, or by a thread about to notify; and no posted task is lost. -/
structure Counted (r : TaskRunner τ) : Prop where
  defined : r.run ≠ .undefined
  count : r.run ≠ .exited → r.tasks.length = r.notifier.value + r.owed + r.posting.length
  kept : (r.ran ++ r.waiting).Perm r.posted

/-- Nothing is posted, and nothing is owed. -/
theorem counted_init : Counted (init : TaskRunner τ) where
  defined := by simp [init]
  count := by simp [init, owed]
  kept := by simp [init, waiting, batch]

/-- One step before `stop` keeps the counting invariant: for each task in the deque there is a
    notification that is unread, in hand, or about to be written. -/
theorem counted_move {r r' : TaskRunner τ} {a : Act τ} (hr : Counted r) (h : Move r a r')
    (hstop : r'.stopped = false) : Counted r' := by
  obtain ⟨hdef, hcount, hkept⟩ := hr
  have hkept' := kept_move hkept h
  cases h with
  | ignored => exact ⟨hdef, hcount, hkept⟩
  | pushed tid task t hfn hfree =>
    refine ⟨hdef, fun hex => ?_, hkept'⟩
    have hc := hcount hex
    simp only [owed, List.length_cons] at hc ⊢
    omega
  | notified tid hmem =>
    refine ⟨hdef, fun hex => ?_, hkept⟩
    have hc := hcount hex
    have hpos := List.length_pos_of_mem hmem
    have hlen := List.length_erase_of_mem hmem
    simp only [owed, Notifier.value_cons, Notifier.kNotifyOne] at hc ⊢
    omega
  | interrupted => exact ⟨hdef, hcount, hkept⟩
  | quit hrun => exact ⟨by simp, by simp, hkept'⟩
  | retrieved hrun hlt =>
    -- the counter moves into `owed`
    refine ⟨by simp, fun _ => ?_, hkept'⟩
    simpa [owed, hrun] using hcount (by simp [hrun])
  | collected e hrun batch' tasks hpop =>
    have hc := hcount (by simp [hrun])
    simp only [owed, hrun] at hc
    rw [popFront_eq_some e r.tasks (by omega)] at hpop
    cases hpop
    refine ⟨by simp, fun _ => ?_, hkept'⟩
    simp only [owed, List.length_drop]
    omega
  | underflow e hrun hpop =>
    -- excluded: the counting equation says that the deque holds at least `e` tasks
    have hc := hcount (by simp [hrun])
    simp only [owed, hrun] at hc
    rw [popFront_eq_some e r.tasks (by omega)] at hpop
    cases hpop
  | ranTask t tasks hrun | rested hrun =>
    refine ⟨by simp, fun _ => ?_, hkept'⟩
    simpa [owed, hrun] using hcount (by simp [hrun])
  | stopped n => cases hstop

/-- No step takes `stop` back. -/
theorem stopped_of_move {r r' : TaskRunner τ} {a : Act τ} (h : Move r a r')
    (hstop : r'.stopped = false) : r.stopped = false := by
  cases h <;> first | exact hstop | cases hstop

/-- The counting invariant holds in every state reached before `stop`. -/
theorem counted_of_exec (acts : List (Act τ)) {r : TaskRunner τ}
    (h : exec step init acts = some r) (hstop : r.stopped = false) : Counted r := by
  refine exec_invariant (P := fun r => r.stopped = false → Counted r) ?_
    (fun _ => counted_init) h hstop
  intro s a t hs hst ht
  have hm := move_of_step hst
  exact counted_move (hs (stopped_of_move hm ht)) hm ht

/-- The task that a step pushes; a `post` without a function pushes none. -/
def Act.pushed : Act τ → Option τ
  | .push _ task => task.fn
  | .notify _ | .interrupted | .retrieve | .collect | .runTask | .rest | .stop => none

/-- A step posts what it pushes. -/
theorem posted_move {r r' : TaskRunner τ} {a : Act τ} (h : Move r a r') :
    r'.posted = r.posted ++ a.pushed.toList := by
  cases h with
  | ignored tid task hfn =>
    rw [Act.pushed, hfn]
    exact (List.append_nil _).symm
  | pushed tid task t hfn hfree =>
    rw [Act.pushed, hfn]
    rfl
  | notified | interrupted | quit | retrieved | collected | underflow | ranTask | rested
    | stopped => exact (List.append_nil _).symm

/-- **`posted` is the history of the pushes**: it has the tasks that the run has pushed, in their
    order. -/
theorem posted_of_exec {r r' : TaskRunner τ} {acts : List (Act τ)}
    (h : exec step r acts = some r') : r'.posted = r.posted ++ acts.filterMap Act.pushed := by
  induction acts generalizing r with
  | nil =>
    cases h
    exact (List.append_nil _).symm
  | cons a acts ih =>
    obtain ⟨u, hu, h⟩ := exec_cons_eq_some.mp h
    rw [ih h, posted_move (move_of_step hu), List.append_assoc, List.filterMap_cons]
    cases a.pushed <;> rfl

/-- **Exactly once.**  Before `stop`, in every interleaving of the posting threads with `Run`, no
    pop meets an empty deque; and whenever no thread is inside `post`, the eventfd counter is zero
    and `Run` is blocked in `poll`, the deque is empty and the tasks run are, as a multiset, the
    tasks posted, which are those of the pushes of the run (`posted_of_exec`). -/
theorem taskRunner_exactly_once (acts : List (Act τ)) {r : TaskRunner τ}
    (h : exec step init acts = some r) (hstop : r.stopped = false) :
    r.run ≠ .undefined ∧
      (r.posting = [] → r.notifier.value = 0 → r.run = .poll →
        r.tasks = [] ∧ (r.ran : Multiset τ) = (r.posted : Multiset τ)) := by
  obtain ⟨hdef, hcount, hkept⟩ := counted_of_exec acts h hstop
  refine ⟨hdef, fun hpost hval hrun => ?_⟩
  have hempty : r.tasks = [] := by
    have hc := hcount (by simp [hrun])
    simp only [owed, hrun, hval, hpost, List.length_nil] at hc
    exact List.eq_nil_of_length_eq_zero hc
  refine ⟨hempty, Multiset.coe_eq_coe.mpr ?_⟩
  simpa [waiting, batch, hrun, hempty] using hkept

/-- Two threads post while `Run` sleeps; one wake-up serves both, the later one first. -/
theorem taskRunner_exactly_once_two_posts :
    ∃ r : TaskRunner Nat, exec step init [.push 0 ⟨some 7⟩, .push 1 ⟨some 8⟩, .notify 1, .notify 0,
        .retrieve, .collect, .runTask, .runTask, .rest] = some r ∧
      r.posted = [7, 8] ∧ r.ran = [8, 7] ∧ r.run ≠ .undefined ∧ r.tasks = [] ∧
      (r.ran : Multiset Nat) = (r.posted : Multiset Nat) := by
  refine ⟨_, rfl, rfl, rfl, ?_⟩
  have h := taskRunner_exactly_once (τ := Nat) [.push 0 ⟨some 7⟩, .push 1 ⟨some 8⟩,
    .notify 1, .notify 0, .retrieve, .collect, .runTask, .runTask, .rest] rfl rfl
  exact ⟨h.1, h.2 rfl rfl rfl⟩

/-! ### The order of the tasks -/

/-- The lock is only taken to collect a batch while the deque holds at most one task.  With two, the
    one that was posted last is run first. -/
def Sparse (r : TaskRunner τ) : Act τ → Prop
  | .collect => r.tasks.length ≤ 1
  | _ => True

instance (r : TaskRunner τ) (a : Act τ) : Decidable (Sparse r a) :=
  match a with
  | .collect => inferInstanceAs (Decidable (r.tasks.length ≤ 1))
  | .push .. | .notify _ | .interrupted | .retrieve | .runTask | .rest | .stop => .isTrue trivial

/-- The deque holds the newest task first, so the tasks still to come are its reversal. -/
def Ordered (r : TaskRunner τ) : Prop :=
  r.ran ++ (r.batch ++ r.tasks.reverse) = r.posted

/-- Reversing the second part of a list of at most one element reverses the list. -/
theorem append_reverse_of_short {l l₁ l₂ : List τ} (h : l₁ ++ l₂ = l) (hs : l.length ≤ 1) :
    l₁ ++ l₂.reverse = l.reverse := by
  subst h
  rw [List.length_append] at hs
  cases l₁ with
  | nil => rfl
  | cons t l₁ =>
    rw [List.length_cons] at hs
    have h₁ : l₁ = [] := List.eq_nil_of_length_eq_zero (by omega)
    have h₂ : l₂ = [] := List.eq_nil_of_length_eq_zero (by omega)
    rw [h₁, h₂]
    rfl

/-- **A move keeps the order** if the deque has no two tasks when a batch is collected: what is
    taken is then the only task there is. -/
theorem ordered_move {r r' : TaskRunner τ} {a : Act τ} (hr : Ordered r) (hs : Sparse r a)
    (h : Move r a r') : Ordered r' := by
  unfold Ordered at hr ⊢
  cases h with
  | ignored | notified | interrupted | stopped => exact hr
  | pushed tid task t hfn hfree =>
    -- `post` pushes at the front, which is the end of the reversal
    show r.ran ++ (r.batch ++ (t :: r.tasks).reverse) = r.posted ++ [t]
    rw [← hr]
    simp
  | quit hrun | retrieved hrun | underflow e hrun | rested hrun =>
    simpa [batch, hrun] using hr
  | collected e hrun batch' tasks hpop =>
    have happ := popFront_append hpop
    simp only [batch, hrun, List.nil_append] at hr ⊢
    rw [append_reverse_of_short happ hs]
    exact hr
  | ranTask t tasks hrun =>
    simp only [batch, hrun] at hr ⊢
    rw [← hr]
    simp

/-- **Posting order.**  In every run in which the deque never holds two tasks when a batch is
    collected, the tasks run so far are a prefix of the tasks posted. -/
theorem taskRunner_in_order (acts : List (Act τ)) {r : TaskRunner τ}
    (h : exec step init acts = some r) (hs : Along step Sparse init acts) :
    r.ran <+: r.posted := by
  have hord : Ordered r := by
    refine exec_invariant_along (P := Ordered) ?_ (by simp [Ordered, init, batch]) hs h
    intro s a t hs ha hst
    exact ordered_move hs ha (move_of_step hst)
  rw [← hord]
  exact List.prefix_append _ _

/-- One thread posts a task, and posts the next while the first one runs. -/
theorem taskRunner_in_order_two_posts :
    ∃ r : TaskRunner Nat, exec step init [.push 0 ⟨some 7⟩, .notify 0, .retrieve, .collect,
        .push 0 ⟨some 8⟩, .notify 0, .runTask, .rest, .retrieve, .collect, .runTask] = some r ∧
      r.ran = [7, 8] ∧ r.ran <+: r.posted :=
  ⟨_, rfl, rfl, taskRunner_in_order [.push 0 ⟨some 7⟩, .notify 0, .retrieve, .collect,
    .push 0 ⟨some 8⟩, .notify 0, .runTask, .rest, .retrieve, .collect, .runTask] rfl (by decide)⟩

/-- One thread posts `7` and then `8` before `Run` wakes up: `8` runs first. -/
theorem taskRunner_reorders :
    ∃ r : TaskRunner Nat, exec step init [.push 0 ⟨some 7⟩, .notify 0, .push 0 ⟨some 8⟩,
        .notify 0, .retrieve, .collect, .runTask, .runTask] = some r ∧
      r.posted = [7, 8] ∧ r.ran = [8, 7] ∧ ¬ r.ran <+: r.posted :=
  ⟨_, rfl, rfl, rfl, by decide⟩

end TaskRunner

end CPlayground.Monitor
