import CPlayground.Monitor.TaskRunner

namespace CPlayground.Monitor.TaskRunner

open CPlayground.Trace

/-!
# `Runner::stop` on a `TaskRunner`

`stop` writes `kNotifyQuit` to the eventfd and does not wait.  `Run` meets it when it next polls,
so a batch it has retrieved by then is still collected and run, and what is in the deque is left
there.

* `left` — the steps `Run` takes from a state with a pending quit.
* `stop_ends` — whatever the other threads do, `Run` leaves its loop after exactly that many
  steps, and it runs as many tasks on the way as it had retrieved.
-/

variable {τ : Type} {r r' : TaskRunner τ} {a : Act τ}

/-- The steps of the thread of `Run`; the others belong to the threads that post, and to `stop`. -/
def Act.own : Act τ → Bool
  | .retrieve | .collect | .runTask | .rest => true
  | .push .. | .notify _ | .interrupted | .stop => false

/-- The steps to the end of the loop. -/
def left (r : TaskRunner τ) : Nat :=
  match r.run with
  | .exited | .undefined => 0
  | .poll => 1
  | .running tasks => tasks.length + 2
  | .retrieved e => e + 3

/-- The tasks that `Run` has retrieved and not run. -/
def inHand (r : TaskRunner τ) : Nat := r.owed + r.batch.length

/-- A runner that was stopped: the quit is not read yet or the loop was left, and the deque has as
    many tasks as `Run` has retrieved. -/
structure Stopped (r : TaskRunner τ) : Prop where
  stopped : r.stopped = true
  defined : r.run ≠ .undefined
  quit : r.run ≠ .exited → Notifier.kNotifyQuit ≤ r.notifier.value
  owed : r.owed ≤ r.tasks.length

/-- `stop` only writes the quit and sets the state. -/
theorem notifier_of_stop (hst : r.step .stop = some r') :
    r' = { r with notifier := ⟨Notifier.kNotifyQuit :: r.notifier.unread⟩, state := .TERMINATED,
                  stopped := true } := by
  simp only [step, Option.map_eq_some_iff, Notifier.notify_eq_some] at hst
  obtain ⟨n, ⟨-, rfl⟩, rfl⟩ := hst
  rfl

/-- `stop` in a state whose tasks are counted. -/
theorem stopped_stop (hdef : r.run ≠ .undefined) (howed : r.owed ≤ r.tasks.length)
    (hst : r.step .stop = some r') : Stopped r' := by
  rw [notifier_of_stop hst]
  refine ⟨rfl, hdef, fun _ => ?_, howed⟩
  rw [Notifier.value_cons]
  exact Nat.le_add_right _ _

/-- The tasks that were announced are in the deque. -/
theorem owed_le_of_counted (h : Counted r) : r.owed ≤ r.tasks.length := by
  by_cases hexit : r.run = .exited
  · simp [owed, hexit]
  · have hcount := h.count hexit
    omega

/-- **One step after `stop`.**  A step of `Run` brings it nearer to the end, the others do not
    move it, and a task is run exactly when it is no longer in hand. -/
theorem stopped_step (h : Stopped r) (hst : r.step a = some r') :
    Stopped r' ∧ r'.left + a.own.toNat = r.left ∧
      r'.ran.length + r'.inHand = r.ran.length + r.inHand := by
  obtain ⟨hstop, hdef, hquit, howed⟩ := h
  cases move_of_step hst with
  | ignored | interrupted => exact ⟨⟨hstop, hdef, hquit, howed⟩, rfl, rfl⟩
  | pushed tid task t => exact ⟨⟨hstop, hdef, hquit, Nat.le_succ_of_le howed⟩, rfl, rfl⟩
  | notified tid =>
    refine ⟨⟨hstop, hdef, fun hexit => ?_, howed⟩, rfl, rfl⟩
    rw [Notifier.value_cons]
    exact Nat.le_add_left_of_le (hquit hexit)
  | quit hrun =>
    refine ⟨⟨hstop, by simp, fun hexit => absurd rfl hexit, Nat.zero_le _⟩, ?_, ?_⟩
    · rw [left, left, hrun]
      rfl
    · simp only [inHand, owed, batch, hrun]
  | retrieved hrun hlt =>
    -- the counter has the quit
    have hle := hquit (by simp [hrun])
    omega
  | collected e hrun tasks rest hpop =>
    have hle : e ≤ r.tasks.length := by simpa only [owed, hrun] using howed
    rw [popFront_eq_some e r.tasks hle] at hpop
    cases hpop
    have hexit : r.run ≠ .exited := by simp [hrun]
    refine ⟨⟨hstop, by simp, fun _ => hquit hexit, Nat.zero_le _⟩, ?_, ?_⟩
    · simp only [left, hrun, Act.own, Bool.toNat_true, List.length_take_of_le hle]
    · simp only [inHand, owed, batch, hrun, List.length_take_of_le hle, List.length_nil,
        Nat.zero_add, Nat.add_zero]
  | underflow e hrun hpop =>
    have hle : e ≤ r.tasks.length := by simpa only [owed, hrun] using howed
    rw [popFront_eq_some e r.tasks hle] at hpop
    cases hpop
  | ranTask t tasks hrun =>
    have hexit : r.run ≠ .exited := by simp [hrun]
    refine ⟨⟨hstop, by simp, fun _ => hquit hexit, Nat.zero_le _⟩, ?_, ?_⟩
    · simp only [left, hrun, Act.own, Bool.toNat_true, List.length_cons]
    · simp only [inHand, owed, batch, hrun, List.length_append, List.length_cons, List.length_nil]
      omega
  | rested hrun =>
    have hexit : r.run ≠ .exited := by simp [hrun]
    refine ⟨⟨hstop, by simp, fun _ => hquit hexit, Nat.zero_le _⟩, ?_, ?_⟩
    · simp only [left, hrun, Act.own, Bool.toNat_true, List.length_nil]
    · simp only [inHand, owed, batch, hrun, List.length_nil]
  | stopped n =>
    refine ⟨stopped_stop hdef howed hst, ?_⟩
    exact ⟨rfl, rfl⟩

/-- Every state that is reached after a `stop`: the quit is not read yet, or the loop was left. -/
theorem stopped_of_exec {acts : List (Act τ)} (hrun : exec step init acts = some r)
    (hstop : r.stopped = true) : Stopped r := by
  have hinv : (r.stopped = false → Counted r) ∧ (r.stopped = true → Stopped r) := by
    refine exec_invariant
      (P := fun r => (r.stopped = false → Counted r) ∧ (r.stopped = true → Stopped r)) ?_
      ⟨fun _ => counted_init, nofun⟩ hrun
    rintro r a r' ⟨hcounted, hstopped⟩ hst
    have hmove := move_of_step hst
    refine ⟨fun hstop' => counted_move (hcounted (stopped_of_move hmove hstop')) hmove hstop',
      fun hstop' => ?_⟩
    cases hbefore : r.stopped with
    | true => exact (stopped_step (hstopped hbefore) hst).1
    | false =>
      have hr := hcounted hbefore
      cases hmove with
      | stopped n => exact stopped_stop hr.defined (owed_le_of_counted hr) hst
      | ignored | pushed | notified | interrupted | quit | retrieved | collected | underflow
        | ranTask | rested => exact absurd (hbefore.symm.trans hstop') nofun
  exact hinv.2 hstop

/-- `Run` is never stuck on its way: it has an event to read, tasks to pop, or tasks to run. -/
theorem exists_own_step (h : Stopped r) (hleft : r.left ≠ 0) :
    ∃ a, Act.own a = true ∧ (r.step a).isSome := by
  cases hrun : r.run with
  | poll =>
    have hquit := h.quit (by rw [hrun]; nofun)
    have hpos : r.notifier.value ≠ 0 := Nat.ne_of_gt (Nat.lt_of_lt_of_le (by decide) hquit)
    have hretrieve : Notifier.kNotifyQuit ≤ r.notifier.retrieve.1 := hquit
    refine ⟨.retrieve, rfl, ?_⟩
    simp only [step, hrun, if_neg hpos, if_pos hretrieve, Option.isSome_some]
  | retrieved e =>
    have hle : e ≤ r.tasks.length := by simpa only [owed, hrun] using h.owed
    refine ⟨.collect, rfl, ?_⟩
    simp only [step, hrun, popFront_eq_some e r.tasks hle, Option.isSome_some]
  | running tasks =>
    cases tasks with
    | nil => exact ⟨.rest, rfl, by simp only [step, hrun, Option.isSome_some]⟩
    | cons t tasks => exact ⟨.runTask, rfl, by simp only [step, hrun, Option.isSome_some]⟩
  | undefined => exact absurd hrun h.defined
  | exited => exact absurd (by rw [left, hrun]) hleft

/-- The run lemma: the steps of `Run` and the tasks it runs, from a stopped state on. -/
theorem stopped_exec {acts : List (Act τ)} (h : Stopped r) (hrun : exec step r acts = some r') :
    Stopped r' ∧ r'.left + acts.countP Act.own = r.left ∧
      r'.ran.length + r'.inHand = r.ran.length + r.inHand := by
  induction acts generalizing r with
  | nil => cases hrun; exact ⟨h, rfl, rfl⟩
  | cons a acts ih =>
    obtain ⟨u, hu, hrun⟩ := exec_cons_eq_some.mp hrun
    obtain ⟨hu, hleft, hran⟩ := stopped_step h hu
    obtain ⟨hr', hleft', hran'⟩ := ih hu hrun
    refine ⟨hr', ?_, hran'.trans hran⟩
    rw [List.countP_cons, ← hleft, ← hleft']
    cases a.own <;> simp [Nat.add_assoc]

/-- **`stop` ends the runner.**  After a `stop`, in every interleaving with threads that post,
    `Run` can always take a step until it has left its loop; it leaves it after exactly `left`
    steps of its own; the tasks it runs meanwhile are as many as it had retrieved, and no pop
    meets an empty deque. -/
theorem stop_ends (before after : List (Act τ)) (hbefore : exec step init before = some r)
    (hstop : r.stopped = true) (hafter : exec step r after = some r') :
    r'.run ≠ .undefined ∧ (r'.left ≠ 0 → ∃ a, Act.own a = true ∧ (r'.step a).isSome) ∧
      (r'.run = .exited ↔ after.countP Act.own = r.left) ∧
      r'.ran.length + r'.inHand = r.ran.length + r.inHand := by
  obtain ⟨hr', hleft, hran⟩ := stopped_exec (stopped_of_exec hbefore hstop) hafter
  refine ⟨hr'.defined, exists_own_step hr', ⟨fun hexit => ?_, fun hcount => ?_⟩, hran⟩
  · have hzero : r'.left = 0 := by rw [left, hexit]
    omega
  · have hzero : r'.left = 0 := by omega
    cases hrun : r'.run with
    | exited => rfl
    | undefined => exact absurd hrun hr'.defined
    | poll | retrieved | running =>
      rw [left, hrun] at hzero
      cases hzero

/-- `stop` comes when a task has been retrieved; another one is posted and stays in the deque. -/
theorem stop_ends_retrieved :
    ∃ r r' : TaskRunner Nat,
      exec step init [.push 0 ⟨some 7⟩, .notify 0, .retrieve, .stop] = some r ∧
      exec step r [.collect, .push 0 ⟨some 8⟩, .notify 0, .runTask, .rest, .retrieve] = some r' ∧
      r'.run = .exited ∧ r'.tasks = [8] ∧ r'.ran.length = 1 := by
  obtain ⟨r, hbefore, htest⟩ := exists_of_exec_any
    (show (exec step (init : TaskRunner Nat) [.push 0 ⟨some 7⟩, .notify 0, .retrieve, .stop]).any
      (fun r => r.stopped ∧ r.left = 4 ∧ r.ran.length + r.inHand = 1) = true by decide +kernel)
  obtain ⟨r', hrun, htest'⟩ := exists_of_exec_any
    (show (exec step (init : TaskRunner Nat) ([.push 0 ⟨some 7⟩, .notify 0, .retrieve, .stop] ++
        [.collect, .push 0 ⟨some 8⟩, .notify 0, .runTask, .rest, .retrieve])).any
      (fun r => r.tasks = [8] ∧ r.inHand = 0) = true by decide +kernel)
  obtain ⟨u, hu, hafter⟩ := exec_append_eq_some.mp hrun
  cases hbefore.symm.trans hu
  obtain ⟨hstop, hleft, hhand⟩ := of_decide_eq_true htest
  obtain ⟨htasks, hhand'⟩ := of_decide_eq_true htest'
  have h := stop_ends _ _ hbefore hstop hafter
  have hran := h.2.2.2
  rw [hhand, hhand'] at hran
  exact ⟨r, r', hbefore, hafter, h.2.2.1.mpr hleft.symm, htasks, hran⟩

end CPlayground.Monitor.TaskRunner
