import CPlayground.Lib.Drain
import CPlayground.Monitor.TimerRunner
import Mathlib.Algebra.Order.Ring.Rat

namespace CPlayground.Monitor.TRunner

open CPlayground.Trace

/-!
# Timer tasks: the batch of a round

When it is woken up, `tRunner::Run` takes the tasks that are due out of the heap, with the lock
held: the ones that are marked make up the batch that is run next, the others have been canceled and
are disposed of.

* `exec_collection` — the loop empties the heap up to `now + kLeastDuration`, as `Drain` says.
* `due_batch` — so it pops the tasks that are due in the order of their times, whichever of several
  tasks with one time the heap has on top.
-/

/-- Rounds of the loop that collects the tasks, in which `tops` are popped. -/
def collects (tops : List TTask) : List Act := tops.map fun top => .run (.collect top)

/-- The loop, and the release of the lock behind it. -/
def collection (tops : List TTask) : List Act := collects tops ++ [.run .unlock]

/-- The tasks that are put into the batch. -/
def marked (marks : Finset Int) (tops : List TTask) : List TTask :=
  tops.filter fun t => t.id ∈ marks

/-- The calls of `dispose`. -/
def disposals (marks : Finset Int) (tops : List TTask) : List Event :=
  (tops.filter fun t => t.id ∉ marks ∧ t.dispose).map .disposed

/-- The tasks that are due at `now`. -/
def due (now : ℚ) (tasks : List TTask) : List TTask :=
  tasks.filter fun u => u.runat < now + Timer.kLeastDuration

/-- The tasks that are not due at `now`. -/
def notDue (now : ℚ) (tasks : List TTask) : List TTask :=
  tasks.filter fun u => now + Timer.kLeastDuration ≤ u.runat

variable {s s' t : TRunner} {now : ℚ} {batch tops : List TTask} {top : TTask}

/-- A round takes a task out of the heap, into the batch or away, if it is due and no other is due
    earlier. -/
theorem step_collect (hrun : s.run = .collecting now batch) :
    step s (.run (.collect top)) =
      if IsTop s.tasks top ∧ top.runat < now + Timer.kLeastDuration then
        some { s with tasks := s.tasks.erase top
                      run := .collecting now (batch ++ marked s.marks [top])
                      log := s.log ++ disposals s.marks [top] }
      else none := by
  simp only [step, stepRun, hrun]
  split
  · by_cases hmark : top.id ∈ s.marks
    · have hbatch : marked s.marks [top] = [top] := by simp [marked, hmark]
      have hlog : disposals s.marks [top] = [] := by simp [disposals, hmark]
      rw [if_pos hmark, hbatch, hlog, List.append_nil]
    · have hbatch : marked s.marks [top] = [] := by simp [marked, hmark]
      rw [if_neg hmark, hbatch, List.append_nil, ← hrun]
      by_cases hdispose : top.dispose = true
      · have hlog : disposals s.marks [top] = [.disposed top] := by
          simp [disposals, hmark, hdispose]
        rw [if_pos hdispose, hlog]
      · have hlog : disposals s.marks [top] = [] := by simp [disposals, hdispose]
        rw [if_neg hdispose, hlog, List.append_nil]
  · rfl

/-- The batch is complete when no task in the heap is due any more. -/
theorem step_unlock (hrun : s.run = .collecting now batch) :
    step s (.run .unlock) =
      if ∀ u ∈ s.tasks, now + Timer.kLeastDuration ≤ u.runat then
        some { s with run := .running batch batch }
      else none := by
  simp only [step, stepRun, hrun]

/-- The marked tasks among those that are popped, one after another. -/
theorem marked_cons (marks : Finset Int) (top : TTask) (tops : List TTask) :
    marked marks (top :: tops) = marked marks [top] ++ marked marks tops := by
  rw [marked, marked, marked, ← List.filter_append, List.singleton_append]

/-- The disposals of the tasks without a mark, one after another. -/
theorem disposals_cons (marks : Finset Int) (top : TTask) (tops : List TTask) :
    disposals marks (top :: tops) = disposals marks [top] ++ disposals marks tops := by
  rw [disposals, disposals, disposals, ← List.map_append, ← List.filter_append,
    List.singleton_append]

/-- **The loop** empties the heap up to the bound: the tasks come out in the order of their times,
    and those with a mark are the batch. -/
theorem exec_collection (hrun : s.run = .collecting now batch) :
    exec step s (collection tops) = some t ↔
      ∃ rest, Drain TTask.runat (now + Timer.kLeastDuration) s.tasks tops rest ∧
        t = { s with tasks := rest
                     run := .running (batch ++ marked s.marks tops) (batch ++ marked s.marks tops)
                     log := s.log ++ disposals s.marks tops } := by
  -- by induction on the tops: the loop of `Run` takes them as `Drain` does
  induction tops generalizing s batch with
  | nil =>
    have hend : collection [] = [.run .unlock] := rfl
    rw [hend, exec_cons_eq_some, step_unlock hrun]
    constructor
    · rintro ⟨u, hu, ht⟩
      split_ifs at hu with hge
      cases hu
      cases ht
      exact ⟨s.tasks, .done hge, by simp [marked, disposals]⟩
    · rintro ⟨rest, hdrain, rfl⟩
      obtain ⟨hge, rfl⟩ := Drain.nil_iff.mp hdrain
      exact ⟨_, if_pos hge, by simp [marked, disposals]⟩
  | cons top tops ih =>
    have hround : collection (top :: tops) = .run (.collect top) :: collection tops := rfl
    rw [hround, exec_cons_eq_some, step_collect hrun, marked_cons _ top tops,
      disposals_cons _ top tops, ← List.append_assoc, ← List.append_assoc]
    constructor
    · rintro ⟨u, hu, ht⟩
      split_ifs at hu with htop
      cases hu
      obtain ⟨rest, hdrain, rfl⟩ := (ih rfl).mp ht
      exact ⟨rest, Drain.cons_iff.mpr ⟨htop.1, htop.2, hdrain⟩, rfl⟩
    · rintro ⟨rest, hdrain, rfl⟩
      obtain ⟨hmin, hlt, hrest⟩ := Drain.cons_iff.mp hdrain
      exact ⟨_, if_pos ⟨hmin, hlt⟩, (ih rfl).mpr ⟨rest, hrest, rfl⟩⟩

/-- After some rounds, there are the tasks of a batch. -/
theorem run_of_exec_collects (hrun : s.run = .collecting now batch)
    (h : exec step s (collects tops) = some t) : ∃ batch', t.run = .collecting now batch' := by
  induction tops generalizing s batch with
  | nil =>
    cases h
    exact ⟨batch, hrun⟩
  | cons top tops ih =>
    obtain ⟨u, hstep, hu⟩ := exec_cons_eq_some.mp h
    rw [step_collect hrun] at hstep
    split_ifs at hstep
    cases hstep
    exact ih rfl hu

/-- **The batch of a round.**  Whatever the heap and the marks are, rounds of the loop can always be
    continued up to its end, and the loop then has popped the tasks that are due, in the order of
    their times; the marked ones are the batch, `dispose` has been called once for each of the
    others that has it, and the rest of the heap is as before. -/
theorem due_batch (hrun : s.run = .collecting now []) :
    (∀ tops s', exec step s (collects tops) = some s' →
      ∃ more t, exec step s' (collection more) = some t) ∧
    ∀ tops t, exec step s (collection tops) = some t →
      tops.Perm (due now s.tasks) ∧ tops.Pairwise (fun t u => t.runat ≤ u.runat) ∧
        t = { s with tasks := notDue now s.tasks
                     run := .running (marked s.marks tops) (marked s.marks tops)
                     log := s.log ++ disposals s.marks tops } := by
  constructor
  · intro tops s' h
    obtain ⟨batch, hrun'⟩ := run_of_exec_collects hrun h
    obtain ⟨more, rest, hdrain⟩ := Drain.total TTask.runat (now + Timer.kLeastDuration) s'.tasks
    exact ⟨more, _, (exec_collection hrun').mpr ⟨rest, hdrain, rfl⟩⟩
  · intro tops t h
    obtain ⟨rest, hdrain, rfl⟩ := (exec_collection hrun).mp h
    refine ⟨hdrain.perm, hdrain.pairwise, ?_⟩
    rw [hdrain.rest_eq]
    rfl

/-- Three tasks that are due and one that is not; the second one is canceled. -/
def oneCanceled : TRunner :=
  { init 0 with
    tasks := [⟨1, 5, 0, 0, true, true⟩, ⟨2, 3, 0, 0, true, true⟩, ⟨3, 12, 0, 0, true, true⟩,
      ⟨4, 1, 0, 0, true, false⟩]
    marks := {1, 3, 4}
    run := .collecting 0 [] }

/-- The batch is in the order of the times. -/
theorem due_batch_canceled : ∃ tops t, exec step oneCanceled (collection tops) = some t ∧
    (∀ task ∈ tops, task ∈ due 0 oneCanceled.tasks) ∧ tops.map TTask.id = [4, 2, 1] ∧
    (∃ batch, t.run = .running batch batch ∧ batch.map TTask.id = [4, 1]) ∧
    t.tasks.map TTask.id = [3] ∧ t.log.map (fun e => e.task.id) = [2] := by
  have hany : (exec step oneCanceled (collection [⟨4, 1, 0, 0, true, false⟩,
      ⟨2, 3, 0, 0, true, true⟩, ⟨1, 5, 0, 0, true, true⟩])).any (fun _ => true) = true := by
    decide +kernel
  obtain ⟨t, hexec, -⟩ := exists_of_exec_any hany
  obtain ⟨hperm, -, rfl⟩ := (due_batch rfl).2 _ _ hexec
  exact ⟨_, _, hexec, fun task htask => hperm.mem_iff.mp htask, rfl, ⟨_, rfl, by decide +kernel⟩,
    by decide +kernel, by decide +kernel⟩

end CPlayground.Monitor.TRunner
