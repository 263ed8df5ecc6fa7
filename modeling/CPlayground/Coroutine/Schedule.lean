import CPlayground.Lib.CInt
import CPlayground.Lib.Loop
import CPlayground.Lib.Trace
import Mathlib.Data.List.Basic

namespace CPlayground.Sun

open CInt

/-!
# `schedule.cpp`

Coroutines that give up the processor by themselves.  A context is what is left to be executed from
it on: the segments of the task, between its calls of `yield`.  `swapcontext` to a coroutine
executes the next one, up to the `yield` behind it or, by `uc_link`, up to the end of the task.

* `Schedule.resume`, `Schedule.finished` — the functions of the source, with the segments executed
  so far as a history.
* `finished_iff` — seen from the main context, a coroutine is `RUNNING` exactly if it has returned.
* `round_after` — a round executes one segment of every coroutine that has one left.
* `completes_iff` — the loop executes all of them once and ends, as long as the number of coroutines
  is an `int`: from `2 ^ 31` on the id of a coroutine is not positive.
-/

/-- `enum State`. -/
inductive State
  | runnable
  | running
  | suspend
  deriving DecidableEq

/-- A task: the segment up to the first `yield`, and one behind each `yield`. -/
structure Task (α : Type*) where
  first : α
  later : List α

/-- All the segments of a task. -/
def Task.segments {α : Type*} (t : Task α) : List α := t.first :: t.later

/-- `struct Coroutine`; `uc` are the segments from the saved context on. -/
structure Coroutine (α : Type*) where
  state : State
  uc : List α

/-- `struct Schedule`, and the segments that were executed, with the index of the coroutine. -/
structure Schedule (α : Type*) where
  runningId : Int
  coroutines : List (Coroutine α)
  executed : List (Nat × α)

namespace Schedule

variable {α : Type*}

/-- `Schedule()`. -/
def new : Schedule α := ⟨-1, [], []⟩

/-- `Coroutine::Create`: the schedule and the id, which is the size as an `int`. -/
def create (s : Schedule α) (task : Task α) : Schedule α × Int :=
  let coroutines := s.coroutines ++ [⟨.runnable, task.segments⟩]
  ({ s with coroutines }, ofSize coroutines.length)

/-- `Coroutine::Yield`, called where the segments `rest` are left. -/
def yield (s : Schedule α) (rest : List α) : Option (Schedule α) :=
  if 0 < s.runningId ∧ s.runningId ≤ s.coroutines.length then
    some { s with
      runningId := -1
      coroutines := s.coroutines.set (s.runningId - 1).toNat ⟨.suspend, rest⟩ }
  else none

/-- `swapcontext(&sched.main,&co->uc)` for the coroutine with the index `i`, until the main context
    goes on.  The context of a task that has returned cannot be used any more. -/
def swap (s : Schedule α) (i : Nat) (co : Coroutine α) : Option (Schedule α) :=
  match co.uc with
  | [] => none
  | [segment] =>
      -- the task returns: `uc_link` leads to the main context, and the state stays `RUNNING`
      some { s with
        coroutines := s.coroutines.set i { co with uc := [] }
        executed := s.executed ++ [(i, segment)] }
  | segment :: rest => yield { s with executed := s.executed ++ [(i, segment)] } rest

/-- `Coroutine::Resume`, up to where the main context goes on. -/
def resume (s : Schedule α) (id : Int) : Option (Schedule α) :=
  if id ≤ 0 ∨ s.coroutines.length < id then some s
  else
    let i := (id - 1).toNat
    (s.coroutines[i]?).bind fun co =>
      if co.state = .running then some s
      else
        let co := { co with state := .running }
        swap { s with runningId := id, coroutines := s.coroutines.set i co } i co

/-- `finished`. -/
def finished (s : Schedule α) : Bool := s.coroutines.all fun co => co.state = .running

/-- The coroutines for the tasks, and their ids. -/
def createAll (s : Schedule α) : List (Task α) → Schedule α × List Int
  | [] => (s, [])
  | task :: tasks =>
      let (s, id) := s.create task
      let (s, ids) := createAll s tasks
      (s, id :: ids)

/-- The loop of `main`, for at most `n` rounds: as long as not all are finished, every id is
    resumed, in this order. -/
def mainLoop (n : Nat) (tasks : List (Task α)) : Option (Schedule α) :=
  let (s, ids) := createAll new tasks
  Loop.run (fun s => !s.finished) (fun s => Trace.exec resume s ids) n s

/-! ### What a call of `resume` does -/

/-- The state of a coroutine that was running and has the segments `rest` left. -/
def settled : List α → State
  | [] => .running
  | _ :: _ => .suspend

variable {s s' : Schedule α} {id : Int} {i : Nat} {co : Coroutine α} {segment : α} {rest : List α}

/-- A coroutine that is `RUNNING` is left alone. -/
theorem resume_of_running (hco : s.coroutines[i]? = some co) (hstate : co.state = .running)
    (hid : id = i + 1) : resume s id = some s := by
  obtain ⟨hlt, -⟩ := List.getElem?_eq_some_iff.mp hco
  have hi : (id - 1).toNat = i := by omega
  rw [resume, if_neg (by omega)]
  simp only [hi, hco, Option.bind_some, if_pos hstate]

/-- The others execute their next segment, up to the `yield` behind it or to the end of the task;
    then the scheduler is back in the main context. -/
theorem resume_of_segment (hco : s.coroutines[i]? = some co) (hstate : co.state ≠ .running)
    (huc : co.uc = segment :: rest) (hid : id = i + 1) :
    ∃ k, resume s id = some ⟨k, s.coroutines.set i ⟨settled rest, rest⟩,
      s.executed ++ [(i, segment)]⟩ := by
  obtain ⟨hlt, -⟩ := List.getElem?_eq_some_iff.mp hco
  have hi : (id - 1).toNat = i := by omega
  rw [resume, if_neg (by omega)]
  simp only [hi, hco, Option.bind_some, if_neg hstate, swap, huc]
  cases rest with
  | nil =>
    refine ⟨id, ?_⟩
    simp only [List.set_set, settled]
  | cons next rest =>
    refine ⟨-1, ?_⟩
    simp only [yield, List.length_set, hi, List.set_set, settled]
    rw [if_pos (by omega)]

/-- **The only change** that a call of `resume` makes: none, or one coroutine executes its next
    segment, and is suspended or has returned then. -/
theorem resume_cases (h : resume s id = some s') :
    s' = s ∨ ∃ (i : Nat) (rest : List α), id = i + 1 ∧
      s'.coroutines = s.coroutines.set i ⟨settled rest, rest⟩ := by
  by_cases hrange : id ≤ 0 ∨ s.coroutines.length < id
  · rw [resume, if_pos hrange, Option.some.injEq] at h
    exact .inl h.symm
  · obtain ⟨i, rfl⟩ : ∃ i : Nat, id = i + 1 := ⟨(id - 1).toNat, by omega⟩
    have hlt : i < s.coroutines.length := by omega
    obtain ⟨co, hco⟩ : ∃ co, s.coroutines[i]? = some co := ⟨_, List.getElem?_eq_getElem hlt⟩
    by_cases hstate : co.state = .running
    · rw [resume_of_running hco hstate rfl, Option.some.injEq] at h
      exact .inl h.symm
    · cases huc : co.uc with
      | nil =>
        rw [resume, if_neg hrange] at h
        simp [hco, hstate, swap, huc] at h
      | cons segment rest =>
        obtain ⟨k, hk⟩ := resume_of_segment hco hstate huc rfl
        obtain rfl := Option.some.inj (hk.symm.trans h)
        exact .inr ⟨i, rest, rfl, rfl⟩

/-! ### Seen from the main context -/

/-- A coroutine is `RUNNING` exactly if nothing is left of it. -/
def Settled (s : Schedule α) : Prop := ∀ co ∈ s.coroutines, co.state = .running ↔ co.uc = []

/-- `resume` comes back to the main context, which is running then. -/
theorem Settled.resume (hs : Settled s) (h : resume s id = some s') : Settled s' := by
  rcases resume_cases h with rfl | ⟨i, rest, -, hset⟩
  · exact hs
  · intro co' hmem
    rw [hset] at hmem
    rcases List.mem_or_eq_of_mem_set hmem with hmem | rfl
    · exact hs co' hmem
    · cases rest with
      | nil => simp [settled]
      | cons next rest => simp [settled]

/-- The test looks at the state of every coroutine. -/
theorem finished_eq_true : finished s = true ↔ ∀ co ∈ s.coroutines, co.state = .running := by
  simp [finished]

/-- The ids that `Create` gives to tasks, behind `k` coroutines. -/
def idsFrom (k : Nat) : List (Task α) → List Int
  | [] => []
  | _ :: tasks => ofSize (k + 1) :: idsFrom (k + 1) tasks

/-- The coroutines are created one after another, each with all its segments. -/
theorem createAll_eq (s : Schedule α) (tasks : List (Task α)) :
    createAll s tasks =
      ({ s with coroutines := s.coroutines ++ tasks.map fun t => ⟨.runnable, t.segments⟩ },
        idsFrom s.coroutines.length tasks) := by
  induction tasks generalizing s with
  | nil => simp [createAll, idsFrom]
  | cons task tasks ih => simp [createAll, create, ih, idsFrom]

/-- The schedule at the beginning of the loop. -/
def created (tasks : List (Task α)) : Schedule α := (createAll new tasks).1

/-- The coroutines before the first round. -/
theorem created_eq (tasks : List (Task α)) :
    created tasks = ⟨-1, tasks.map fun t => ⟨.runnable, t.segments⟩, []⟩ := by
  rw [created, createAll_eq]
  rfl

/-- **`finished`** says whether all coroutines have returned, whatever was resumed before. -/
theorem finished_iff (tasks : List (Task α)) (ids : List Int)
    (h : Trace.exec resume (created tasks) ids = some s) :
    finished s = true ↔ ∀ co ∈ s.coroutines, co.uc = [] := by
  have hsettled : Settled s := by
    refine Trace.exec_invariant (fun s id s' hs h => hs.resume h) ?_ h
    rw [created_eq]
    intro co hmem
    obtain ⟨t, -, rfl⟩ := List.mem_map.mp hmem
    simp [Task.segments]
  rw [finished_eq_true]
  exact forall₂_congr hsettled

/-! ### Rounds -/

/-- A coroutine after `r` rounds. -/
def after (r : Nat) (t : Task α) : Coroutine α :=
  { state := if t.segments.length ≤ r then .running else if r = 0 then .runnable else .suspend
    uc := t.segments.drop r }

/-- What a round executes after `r` others: the next segment of every coroutine that has one, from
    the coroutine number `i` on. -/
def roundLog (r : Nat) : Nat → List (Task α) → List (Nat × α)
  | _, [] => []
  | i, t :: tasks =>
      (t.segments[r]?.map fun segment => (i, segment)).toList ++ roundLog r (i + 1) tasks

/-- A coroutine that has executed its next segment. -/
theorem settled_drop (t : Task α) (r : Nat) :
    (⟨settled (t.segments.drop (r + 1)), t.segments.drop (r + 1)⟩ : Coroutine α)
      = after (r + 1) t := by
  rw [after]
  congr 1
  by_cases h : t.segments.length ≤ r + 1
  · rw [if_pos h, List.drop_eq_nil_of_le h]
    rfl
  · rw [if_neg h, if_neg (Nat.succ_ne_zero r), List.drop_eq_getElem_cons (by omega)]
    rfl

/-- Resuming one coroutine in a round: it executes its segment of this round, or nothing if it has
    returned. -/
theorem resume_after {before behind : List (Coroutine α)} {t : Task α} {r : Nat}
    (hs : s.coroutines = before ++ after r t :: behind) (hid : id = before.length + 1) :
    ∃ k, resume s id = some ⟨k, before ++ after (r + 1) t :: behind,
      s.executed ++ (t.segments[r]?.map fun segment => (before.length, segment)).toList⟩ := by
  have hco : s.coroutines[before.length]? = some (after r t) := by
    rw [hs, List.getElem?_append_right (Nat.le_refl _), Nat.sub_self]
    rfl
  by_cases hr : t.segments.length ≤ r
  · -- it has returned
    have hsame : after (r + 1) t = after r t := by
      rw [after, after, if_pos hr, if_pos (by omega), List.drop_eq_nil_of_le hr,
        List.drop_eq_nil_of_le (by omega)]
    refine ⟨s.runningId, ?_⟩
    rw [resume_of_running hco (if_pos hr) hid, List.getElem?_eq_none hr, hsame, ← hs]
    simp
  · have hlt : r < t.segments.length := by omega
    have hstate : (after r t).state ≠ .running := by
      show (if _ then State.running else _) ≠ _
      rw [if_neg hr]
      split <;> simp
    obtain ⟨k, hk⟩ := resume_of_segment hco hstate (List.drop_eq_getElem_cons hlt) hid
    refine ⟨k, ?_⟩
    rw [hk, hs, settled_drop, List.getElem?_eq_getElem hlt,
      List.set_append_right _ _ (Nat.le_refl _), Nat.sub_self]
    rfl

/-- **One round.**  Every coroutine that has a segment left executes it, in the order of the ids;
    the induction is on the tasks, with the coroutines in front of them as they are. -/
theorem round_after (before : List (Coroutine α)) {tasks : List (Task α)} {r : Nat}
    (hs : s.coroutines = before ++ tasks.map (after r))
    (hlt : before.length + tasks.length < 2 ^ 31) :
    ∃ k, Trace.exec resume s (idsFrom before.length tasks) =
      some ⟨k, before ++ tasks.map (after (r + 1)),
        s.executed ++ roundLog r before.length tasks⟩ := by
  induction tasks generalizing before s with
  | nil =>
    refine ⟨s.runningId, ?_⟩
    rw [List.map_nil] at hs ⊢
    rw [← hs, roundLog, List.append_nil]
    rfl
  | cons t tasks ih =>
    rw [List.length_cons] at hlt
    have hid : ofSize (before.length + 1) = before.length + 1 := ofSize_of_lt (by omega)
    obtain ⟨k, hk⟩ := resume_after hs hid
    obtain ⟨k', hk'⟩ := ih (before ++ [after (r + 1) t])
      (s := ⟨k, before ++ after (r + 1) t :: tasks.map (after r), _⟩)
      (List.append_cons before (after (r + 1) t) (tasks.map (after r)))
      (by rw [List.length_append, List.length_singleton]; omega)
    refine ⟨k', Trace.exec_cons_eq_some.mpr ⟨_, hk, ?_⟩⟩
    rw [List.length_append, List.length_singleton] at hk'
    rw [hk', roundLog]
    simp

/-- The number of segments of the longest task. -/
def longest : List (Task α) → Nat
  | [] => 0
  | t :: tasks => max t.segments.length (longest tasks)

/-- What the first `r` rounds execute. -/
def log (r : Nat) (tasks : List (Task α)) : List (Nat × α) :=
  (List.range r).flatMap fun r => roundLog r 0 tasks

/-- The schedule after `r` rounds: what is left of every task, and the history of the segments,
    which is the one of `r` rounds over all tasks. -/
structure After (r : Nat) (tasks : List (Task α)) (s : Schedule α) : Prop where
  coroutines : s.coroutines = tasks.map (after r)
  executed : s.executed = log r tasks

variable {tasks : List (Task α)} {r n : Nat}

/-- Nothing was executed. -/
theorem after_created (tasks : List (Task α)) : After 0 tasks (created tasks) := by
  rw [created_eq]
  refine ⟨?_, rfl⟩
  apply List.map_congr_left
  intro t _
  rfl

/-- **A round** executes the next segment of every coroutine that has one, if their ids are
    positive. -/
theorem After.round (hs : After r tasks s) (hlt : tasks.length < 2 ^ 31) :
    ∃ s', Trace.exec resume s (idsFrom 0 tasks) = some s' ∧ After (r + 1) tasks s' := by
  obtain ⟨k, hk⟩ := round_after [] hs.coroutines (by rw [List.length_nil]; omega)
  refine ⟨_, hk, rfl, ?_⟩
  rw [hs.executed, log, log, List.range_succ, List.flatMap_append, List.flatMap_singleton]
  rfl

/-- A coroutine has returned after as many rounds as it has segments. -/
theorem after_state (r : Nat) (t : Task α) :
    (after r t).state = .running ↔ t.segments.length ≤ r := by
  show (if _ then State.running else _) = _ ↔ _
  split
  case isTrue h => simp [h]
  case isFalse h => split <;> simp [h]

/-- The longest task bounds all the others. -/
theorem longest_le : longest tasks ≤ r ↔ ∀ t ∈ tasks, t.segments.length ≤ r := by
  induction tasks with
  | nil => simp [longest]
  | cons t tasks ih => simp [longest, ih]

/-- The test holds exactly after as many rounds as the longest task has segments. -/
theorem After.finished (hs : After r tasks s) : finished s = true ↔ longest tasks ≤ r := by
  rw [finished_eq_true, hs.coroutines, longest_le, List.forall_mem_map]
  exact forall₂_congr fun t _ => after_state r t

/-- **The loop**, from after `r` rounds on: it ends after as many rounds as the longest task has
    segments, given fuel for them. -/
theorem After.loop (hs : After r tasks s) (hlt : tasks.length < 2 ^ 31) (hr : r ≤ longest tasks)
    (hn : longest tasks ≤ r + n) :
    ∃ s', Loop.run (fun s => !s.finished) (fun s => Trace.exec resume s (idsFrom 0 tasks)) n s
      = some s' ∧ After (longest tasks) tasks s' := by
  induction n generalizing s r with
  | zero =>
    obtain rfl : r = longest tasks := by omega
    refine ⟨s, Loop.run_of_not ?_, hs⟩
    rw [hs.finished.mpr (Nat.le_refl _), Bool.not_true]
  | succ n ih =>
    by_cases hdone : r = longest tasks
    · subst hdone
      refine ⟨s, Loop.run_of_not ?_, hs⟩
      rw [hs.finished.mpr (Nat.le_refl _), Bool.not_true]
    · have hlive : s.finished = false := by
        rw [Bool.eq_false_iff, Ne, hs.finished]
        omega
      obtain ⟨s₁, hround, hs₁⟩ := hs.round hlt
      obtain ⟨s', hrun, hs'⟩ := ih hs₁ (by omega) (by omega)
      refine ⟨s', ?_, hs'⟩
      rw [Loop.run_succ (by rw [hlive, Bool.not_false]) hround, hrun]

/-- The loop of `main`: rounds until all have returned. -/
theorem mainLoop_eq (n : Nat) (tasks : List (Task α)) :
    mainLoop n tasks =
      Loop.run (fun s => !s.finished) (fun s => Trace.exec resume s (idsFrom 0 tasks)) n
        (created tasks) := by
  rw [created, mainLoop, createAll_eq]
  rfl

/-! ### Segments in their own order -/

/-- The segments that a coroutine has executed. -/
def segmentsOf (i : Nat) (log : List (Nat × α)) : List α :=
  log.filterMap fun e => if e.1 = i then some e.2 else none

/-- The segments of a coroutine, in two parts of the history. -/
theorem segmentsOf_append (i : Nat) (l l' : List (Nat × α)) :
    segmentsOf i (l ++ l') = segmentsOf i l ++ segmentsOf i l' := List.filterMap_append

/-- A round executes one segment of each coroutine that has one left, under the index of the
    coroutine. -/
theorem segmentsOf_roundLog (r i k : Nat) (tasks : List (Task α)) :
    segmentsOf i (roundLog r k tasks) =
      if k ≤ i then ((tasks[i - k]?).bind fun t => t.segments[r]?).toList else [] := by
  induction tasks generalizing k with
  | nil => simp [roundLog, segmentsOf]
  | cons t tasks ih =>
    have hhead : segmentsOf i ((t.segments[r]?.map fun segment => (k, segment)).toList)
        = if k = i then (t.segments[r]?).toList else [] := by
      cases t.segments[r]? with
      | none => simp [segmentsOf]
      | some segment => by_cases h : k = i <;> simp [segmentsOf, h]
    rw [roundLog, segmentsOf_append, hhead, ih]
    rcases Nat.lt_trichotomy k i with hlt | rfl | hgt
    · rw [if_neg (by omega), if_pos (by omega), if_pos (by omega), List.nil_append,
        show i - k = i - (k + 1) + 1 by omega, List.getElem?_cons_succ]
    · rw [if_pos rfl, if_neg (by omega), if_pos (Nat.le_refl _), Nat.sub_self, List.append_nil]
      rfl
    · rw [if_neg (by omega), if_neg (by omega), if_neg (by omega), List.nil_append]

/-- After some rounds a coroutine has executed as many of its segments, in order. -/
theorem segmentsOf_log {i : Nat} {t : Task α} (ht : tasks[i]? = some t) (r : Nat) :
    segmentsOf i (log r tasks) = t.segments.take r := by
  induction r with
  | zero => rfl
  | succ r ih =>
    have hsucc : log (r + 1) tasks = log r tasks ++ roundLog r 0 tasks := by
      rw [log, log, List.range_succ, List.flatMap_append, List.flatMap_singleton]
    rw [hsucc, segmentsOf_append, ih, segmentsOf_roundLog, if_pos (Nat.zero_le _), Nat.sub_zero, ht,
      Option.bind_some, List.take_add_one]

/-! ### Too many coroutines -/

/-- A coroutine whose number is no `int` is never resumed. -/
def Left (s : Schedule α) : Prop := ∃ co, s.coroutines[2 ^ 31 - 1]? = some co ∧ co.state = .runnable

/-- No `int` is the number of this coroutine, so that `resume` does not get to it. -/
theorem Left.resume (hs : Left s) (hid : id < 2 ^ 31) (h : resume s id = some s') : Left s' := by
  rcases resume_cases h with rfl | ⟨i, rest, rfl, hset⟩
  · exact hs
  · obtain ⟨co, hco, hstate⟩ := hs
    refine ⟨co, ?_, hstate⟩
    rw [hset, List.getElem?_set_ne (by omega), hco]

/-- So it is left as it was in every run. -/
theorem Left.exec {ids : List Int} (hs : Left s) (hids : ∀ id ∈ ids, id < 2 ^ 31)
    (h : Trace.exec Schedule.resume s ids = some s') : Left s' := by
  induction ids generalizing s with
  | nil =>
    obtain rfl := Option.some.inj h
    exact hs
  | cons id ids ih =>
    obtain ⟨s₁, hs₁, h⟩ := Trace.exec_cons_eq_some.mp h
    exact ih (hs.resume (hids id List.mem_cons_self) hs₁)
      (fun id hmem => hids id (List.mem_cons_of_mem _ hmem)) h

/-- The ids are converted to `int`, and are below `2 ^ 31`. -/
theorem idsFrom_lt (k : Nat) (tasks : List (Task α)) : ∀ id ∈ idsFrom k tasks, id < 2 ^ 31 := by
  induction tasks generalizing k with
  | nil => simp [idsFrom]
  | cons t tasks ih =>
    intro id hmem
    rcases List.mem_cons.mp hmem with heq | hmem
    · rw [heq]
      exact (isInt_ofSize (k + 1)).2
    · exact ih _ id hmem

/-- The loop does not end: one of the ids is not positive, so that its coroutine is never resumed
    and `finished` stays false. -/
theorem mainLoop_eq_none (hlt : 2 ^ 31 ≤ tasks.length) (n : Nat) : mainLoop n tasks = none := by
  rw [mainLoop_eq]
  refine Loop.run_diverges (I := Left) ?_ ?_ ?_
  · rintro s ⟨co, hco, hstate⟩
    have hlive : finished s ≠ true := by
      rw [Ne, finished_eq_true]
      intro hall
      have hrunning := hall co (List.mem_of_getElem? hco)
      rw [hstate] at hrunning
      cases hrunning
    rw [Bool.eq_false_iff.mpr hlive, Bool.not_false]
  · intro s s' hs h
    exact hs.exec (idsFrom_lt 0 tasks) h
  · have hi : 2 ^ 31 - 1 < tasks.length := by omega
    refine ⟨⟨.runnable, (tasks[2 ^ 31 - 1]).segments⟩, ?_, rfl⟩
    rw [created_eq]
    show (tasks.map _)[2 ^ 31 - 1]? = _
    rw [List.getElem?_map, List.getElem?_eq_getElem hi, Option.map_some]

/-- The loop ends after as many rounds as the longest task has segments; then all coroutines have
    returned, and what was executed are their segments, one of each in every round, and each
    coroutine's own segments once and in order. -/
def Completes (tasks : List (Task α)) : Prop :=
  ∃ s, (∀ n, longest tasks ≤ n → mainLoop n tasks = some s) ∧
    (∀ co ∈ s.coroutines, co.uc = []) ∧ s.executed = log (longest tasks) tasks ∧
    ∀ i t, tasks[i]? = some t → segmentsOf i s.executed = t.segments

/-- **The scheduler.**  `finished` is true exactly if all coroutines have returned, whatever was
    resumed; and the loop completes all of them exactly if their number is an `int`. -/
theorem completes_iff (tasks : List (Task α)) :
    (∀ ids s, Trace.exec resume (created tasks) ids = some s →
      (finished s = true ↔ ∀ co ∈ s.coroutines, co.uc = [])) ∧
    (Completes tasks ↔ tasks.length < 2 ^ 31) := by
  refine ⟨fun ids s h => finished_iff tasks ids h, ?_, ?_⟩
  · rintro ⟨s, hrun, -⟩
    by_contra hlt
    have hnone := mainLoop_eq_none (Nat.le_of_not_lt hlt) (longest tasks)
    rw [hrun _ (Nat.le_refl _)] at hnone
    cases hnone
  · intro hlt
    obtain ⟨s, hrun, hs⟩ := (after_created tasks).loop hlt (Nat.zero_le _) (Nat.le_add_left _ 0)
    refine ⟨s, ?_, ?_, hs.executed, ?_⟩
    · intro n hn
      rw [mainLoop_eq]
      exact Loop.run_mono hrun hn
    · rw [hs.coroutines]
      intro co hmem
      obtain ⟨t, ht, rfl⟩ := List.mem_map.mp hmem
      exact List.drop_eq_nil_of_le (longest_le.mp (Nat.le_refl _) t ht)
    · intro i t ht
      rw [hs.executed, segmentsOf_log ht]
      exact List.take_of_length_le
        (longest_le.mp (Nat.le_refl _) t (List.mem_of_getElem? ht))

/-- `2 ^ 31` coroutines with one segment each: the last one gets the id `-2 ^ 31`, and the loop does
    not end. -/
theorem completes_not : ofSize (2 ^ 31) = -2 ^ 31 ∧
    ∀ n, mainLoop n (List.replicate (2 ^ 31) (⟨(), []⟩ : Task Unit)) = none :=
  ⟨by decide, mainLoop_eq_none (Nat.le_of_eq List.length_replicate.symm)⟩

end Schedule

end CPlayground.Sun
