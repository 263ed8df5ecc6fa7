import CPlayground.Lib.Trace
import Mathlib.Algebra.BigOperators.Group.Finset.Basic
import Mathlib.Algebra.Order.BigOperators.Group.Finset

namespace CPlayground.Monitor.Daemon

open CPlayground.Trace

/-!
# The forwarder and its daemon

The program of the forwarder takes a record lock on a file, forks a daemon through `Daemon::run`,
and serves.  The daemon holds the read end of a pipe whose write end the server has: when the pipe
hangs up it sleeps, executes the program again and so takes the server's place.  A server whose
`Forwarder` could not be set up first writes `kConflict` to the pipe.

Any number of copies may be started, every process may be killed at any point, and each call may
fail.

* `step` — the processes, the lock and the pipes, one call at a time.
* `one_forwarder` — unless a `Forwarder` or an `execl` fails, at most one process serves.  A
  daemon that reads `kConflict` does not quit: `Daemon::run` returns in it, and it goes on without
  the lock.
* `forwarder_returns` — if only servers die, then from every state a server comes back without
  anybody starting one.  This holds after `SIGINT` too, which ends a server but not its daemon.
-/

/-- A process.  They are numbered in the order of their `fork`s. -/
abbrev Pid := Nat

/-- A pipe, by a number that is not used again. -/
abbrev PipeId := Nat

/-- `kConflict`. -/
def kConflict : Nat := 6

/-- Where a process stands, from the beginning of `main` to its end, and which ends of which pipe it
    has there. -/
inductive Pc where
  /-- Not started yet, or ended. -/
  | gone
  /-- At the start of the program. -/
  | main
  /-- The lock is taken. -/
  | locked
  /-- In `Daemon::run`, at `waitpid`. -/
  | waiting (pipe : PipeId) (child : Pid)
  /-- `Daemon::run` has returned.  Where it did not call `onfork`, `notifier` is indeterminate. -/
  | ready (notifier : Option PipeId)
  /-- In `forwarder.loop()`. -/
  | loop (notifier : Option PipeId)
  /-- The first child, in front of the second `fork`. -/
  | child (pipe : PipeId)
  /-- The second child, the daemon. -/
  | daemon (pipe : PipeId)
  /-- The daemon, in `poll`. -/
  | poll (pipe : PipeId)
  /-- The daemon, in `sleep`. -/
  | sleeping
  /-- On its way out, with the write end it still has. -/
  | exiting (pipe : Option PipeId)
  deriving DecidableEq

/-- The process has the write end of the pipe. -/
def Pc.writes (p : PipeId) : Pc → Bool
  | .waiting q _ | .child q | .daemon q => p = q
  | .ready fd | .loop fd | .exiting fd => fd = some p
  | .gone | .main | .locked | .poll _ | .sleeping => false

/-- The process has come past `fl.lock()`. -/
def Pc.past : Pc → Bool
  | .locked | .waiting .. | .ready _ | .loop _ => true
  | .gone | .main | .child _ | .daemon _ | .poll _ | .sleeping | .exiting _ => false

/-- The processes, the owner of the lock, and what is unread in the pipes. -/
structure Sys where
  next : Pid
  pipes : PipeId
  pc : Pid → Pc
  lock : Option Pid
  status : PipeId → List Nat

namespace Sys

/-- Nothing was started. -/
def init : Sys := ⟨0, 0, fun _ => .gone, none, fun _ => []⟩

/-- A process goes on to another point of its program. -/
def set (s : Sys) (pid : Pid) (pc : Pc) : Sys :=
  { s with pc := Function.update s.pc pid pc }

/-- A new process. -/
def spawn (s : Sys) (pc : Pc) : Sys :=
  { s with next := s.next + 1, pc := Function.update s.pc s.next pc }

/-- The process closes the lock file. -/
def unlock (s : Sys) (pid : Pid) : Sys :=
  { s with lock := if s.lock = some pid then none else s.lock }

/-- The process ends. -/
def leave (s : Sys) (pid : Pid) : Sys := (s.unlock pid).set pid .gone

/-- `pipe2`. -/
def newPipe (s : Sys) : Sys :=
  { s with pipes := s.pipes + 1, status := Function.update s.status s.pipes [] }

/-- `write(notifier, &code, sizeof(code))`; an indeterminate descriptor is none of the pipes. -/
def report (s : Sys) : Option PipeId → Sys
  | some p => { s with status := Function.update s.status p (s.status p ++ [kConflict]) }
  | none   => s

/-- Nobody has the write end. -/
def HungUp (s : Sys) (p : PipeId) : Prop := ∀ pid < s.next, (s.pc pid).writes p = false

instance (s : Sys) (p : PipeId) : Decidable (s.HungUp p) :=
  inferInstanceAs (Decidable (∀ pid < s.next, _))

end Sys

open Sys (init)

/-- The steps of the processes.  `ok` is whether the call succeeds; `kill` may come at any point,
    and `start` is somebody who starts another copy. -/
inductive Act where
  /-- Somebody starts the program. -/
  | start
  /-- `fl.setType(F_WRLCK).lock()`, where `ok` is about `open`. -/
  | lock (pid : Pid) (ok : Bool)
  | fork (pid : Pid) (ok : Bool)
  | forkAgain (pid : Pid) (ok : Bool)
  | wait (pid : Pid)
  /-- `sun::Forwarder forwarder`, and the test of `error_count`. -/
  | construct (pid : Pid) (ok : Bool)
  /-- `SIGINT` ends the loop. -/
  | quit (pid : Pid)
  /-- `closeWriteEnd` and `fl.cleanup()` in the daemon. -/
  | prepare (pid : Pid)
  | poll (pid : Pid)
  /-- `poll` fails: the `continue` of `POLL` leaves the `do … while (0)`. -/
  | interrupted (pid : Pid)
  | exec (pid : Pid) (ok : Bool)
  | exit (pid : Pid)
  | kill (pid : Pid)
  deriving DecidableEq

/-- One call of one process.  The kernel takes back the lock of a process that is gone and closes
    its ends of the pipes, so that a daemon sees its pipe hang up. -/
def step (s : Sys) : Act → Option Sys
  | .start => some (s.spawn .main)
  | .lock pid ok =>
    match s.pc pid with
    | .main =>
      if ok = true ∧ (s.lock = none ∨ s.lock = some pid) then
        some ({ s with lock := some pid }.set pid .locked)
      else some (s.leave pid)
    | _ => none
  | .fork pid ok =>
    match s.pc pid with
    | .locked =>
      if ok then some ((s.newPipe.spawn (.child s.pipes)).set pid (.waiting s.pipes s.next))
      else some (s.set pid (.ready none))
    | _ => none
  | .forkAgain pid ok =>
    match s.pc pid with
    | .child p =>
      if ok then some ((s.spawn (.daemon p)).set pid (.exiting (some p)))
      else some (s.set pid (.exiting (some p)))
    | _ => none
  | .wait pid =>
    match s.pc pid with
    | .waiting p c => if s.pc c = .gone then some (s.set pid (.ready (some p))) else none
    | _ => none
  | .construct pid ok =>
    match s.pc pid with
    | .ready fd =>
      if ok then some (s.set pid (.loop fd)) else some ((s.report fd).set pid (.exiting fd))
    | _ => none
  | .quit pid =>
    match s.pc pid with
    | .loop _ => some (s.leave pid)
    | _ => none
  | .prepare pid =>
    match s.pc pid with
    | .daemon p => some ((s.unlock pid).set pid (.poll p))
    | _ => none
  | .poll pid =>
    match s.pc pid with
    | .poll p =>
      match s.status p with
      | code :: rest =>
        -- `submain` returns, and with it `Daemon::run`
        if code = kConflict then
          some ({ s with status := Function.update s.status p rest }.set pid (.ready none))
        else some ({ s with status := Function.update s.status p rest }.set pid .sleeping)
      | [] => if s.HungUp p then some (s.set pid .sleeping) else none
    | _ => none
  | .interrupted pid =>
    match s.pc pid with
    | .poll _ => some (s.set pid .sleeping)
    | _ => none
  | .exec pid ok =>
    match s.pc pid with
    | .sleeping => if ok then some (s.set pid .main) else some (s.set pid (.ready none))
    | _ => none
  | .exit pid =>
    match s.pc pid with
    | .exiting _ => some (s.leave pid)
    | _ => none
  | .kill pid => if s.pc pid = .gone then none else some (s.leave pid)

/-! ### What a step can do -/

variable {s s' : Sys} {a : Act} {pid q : Pid} {p : PipeId} {pc : Pc}

/-- The transitions of `step` while no status was written, one for each outcome. -/
inductive Move (s : Sys) : Act → Sys → Prop where
  | started : Move s .start (s.spawn .main)
  | locked (pid : Pid) (hpc : s.pc pid = .main) (hfree : s.lock = none ∨ s.lock = some pid) :
      Move s (.lock pid true) ({ s with lock := some pid }.set pid .locked)
  | refused (pid : Pid) (ok : Bool) (hpc : s.pc pid = .main)
      (hheld : ok = true → s.lock ≠ none) : Move s (.lock pid ok) (s.leave pid)
  | forked (pid : Pid) (hpc : s.pc pid = .locked) :
      Move s (.fork pid true)
        ((s.newPipe.spawn (.child s.pipes)).set pid (.waiting s.pipes s.next))
  | unforked (pid : Pid) (hpc : s.pc pid = .locked) :
      Move s (.fork pid false) (s.set pid (.ready none))
  | forkedAgain (pid : Pid) (p : PipeId) (hpc : s.pc pid = .child p) :
      Move s (.forkAgain pid true) ((s.spawn (.daemon p)).set pid (.exiting (some p)))
  | unforkedAgain (pid : Pid) (p : PipeId) (hpc : s.pc pid = .child p) :
      Move s (.forkAgain pid false) (s.set pid (.exiting (some p)))
  | waited (pid : Pid) (p : PipeId) (c : Pid) (hpc : s.pc pid = .waiting p c)
      (hgone : s.pc c = .gone) : Move s (.wait pid) (s.set pid (.ready (some p)))
  | constructed (pid : Pid) (fd : Option PipeId) (hpc : s.pc pid = .ready fd) :
      Move s (.construct pid true) (s.set pid (.loop fd))
  | unconstructed (pid : Pid) (fd : Option PipeId) (hpc : s.pc pid = .ready fd) :
      Move s (.construct pid false) ((s.report fd).set pid (.exiting fd))
  | quit (pid : Pid) (fd : Option PipeId) (hpc : s.pc pid = .loop fd) :
      Move s (.quit pid) (s.leave pid)
  | prepared (pid : Pid) (p : PipeId) (hpc : s.pc pid = .daemon p) :
      Move s (.prepare pid) ((s.unlock pid).set pid (.poll p))
  | hungUp (pid : Pid) (p : PipeId) (hpc : s.pc pid = .poll p) (hhup : s.HungUp p) :
      Move s (.poll pid) (s.set pid .sleeping)
  | interrupted (pid : Pid) (p : PipeId) (hpc : s.pc pid = .poll p) :
      Move s (.interrupted pid) (s.set pid .sleeping)
  | executed (pid : Pid) (hpc : s.pc pid = .sleeping) :
      Move s (.exec pid true) (s.set pid .main)
  | unexecuted (pid : Pid) (hpc : s.pc pid = .sleeping) :
      Move s (.exec pid false) (s.set pid (.ready none))
  | exited (pid : Pid) (fd : Option PipeId) (hpc : s.pc pid = .exiting fd) :
      Move s (.exit pid) (s.leave pid)
  | killed (pid : Pid) (hpc : s.pc pid ≠ .gone) : Move s (.kill pid) (s.leave pid)

/-- Every enabled step is one of them, as long as nobody writes to the pipes: then `poll` only
    returns when a pipe has hung up. -/
theorem move_of_step (hquiet : ∀ p, s.status p = []) (hst : step s a = some s') : Move s a s' := by
  cases a with
  | start => cases hst; exact .started
  | lock pid ok =>
    -- in every case the position of the process leaves one branch of the step
    cases hpc : s.pc pid <;> simp only [step, hpc, reduceCtorEq] at hst
    by_cases htaken : ok = true ∧ (s.lock = none ∨ s.lock = some pid)
    · rw [if_pos htaken] at hst
      cases hst
      obtain ⟨rfl, hfree⟩ := htaken
      exact .locked pid hpc hfree
    · rw [if_neg htaken] at hst
      cases hst
      exact .refused pid ok hpc fun hok hfree => htaken ⟨hok, .inl hfree⟩
  | fork pid ok =>
    cases hpc : s.pc pid <;> simp only [step, hpc, reduceCtorEq] at hst
    cases ok <;> cases hst
    · exact .unforked pid hpc
    · exact .forked pid hpc
  | forkAgain pid ok =>
    cases hpc : s.pc pid <;> simp only [step, hpc, reduceCtorEq] at hst
    cases ok <;> cases hst
    · exact .unforkedAgain pid _ hpc
    · exact .forkedAgain pid _ hpc
  | wait pid =>
    cases hpc : s.pc pid <;>
      simp only [step, hpc, reduceCtorEq, Option.ite_none_right_eq_some] at hst
    obtain ⟨hgone, hst⟩ := hst
    cases hst
    exact .waited pid _ _ hpc hgone
  | construct pid ok =>
    cases hpc : s.pc pid <;> simp only [step, hpc, reduceCtorEq] at hst
    cases ok <;> cases hst
    · exact .unconstructed pid _ hpc
    · exact .constructed pid _ hpc
  | quit pid =>
    cases hpc : s.pc pid <;> simp only [step, hpc, reduceCtorEq] at hst
    cases hst
    exact .quit pid _ hpc
  | prepare pid =>
    cases hpc : s.pc pid <;> simp only [step, hpc, reduceCtorEq] at hst
    cases hst
    exact .prepared pid _ hpc
  | poll pid =>
    cases hpc : s.pc pid <;>
      -- nobody has written to the pipe, so `poll` only returns when it has hung up
      simp only [step, hpc, hquiet, reduceCtorEq, Option.ite_none_right_eq_some] at hst
    obtain ⟨hhup, hst⟩ := hst
    cases hst
    exact .hungUp pid _ hpc hhup
  | interrupted pid =>
    cases hpc : s.pc pid <;> simp only [step, hpc, reduceCtorEq] at hst
    cases hst
    exact .interrupted pid _ hpc
  | exec pid ok =>
    cases hpc : s.pc pid <;> simp only [step, hpc, reduceCtorEq] at hst
    cases ok <;> cases hst
    · exact .unexecuted pid hpc
    · exact .executed pid hpc
  | exit pid =>
    cases hpc : s.pc pid <;> simp only [step, hpc, reduceCtorEq] at hst
    cases hst
    exact .exited pid _ hpc
  | kill pid =>
    simp only [step, Option.ite_none_left_eq_some] at hst
    obtain ⟨hpc, hst⟩ := hst
    cases hst
    exact .killed pid hpc

/-! ### The lock -/

/-- What holds as long as no `Forwarder` and no `execl` fails: the processes past the lock are the
    one that has it, and nothing is written to the pipes. -/
structure Inv (s : Sys) : Prop where
  fresh : ∀ pid, s.next ≤ pid → s.pc pid = .gone
  quiet : ∀ p, s.status p = []
  holder : ∀ pid, (s.pc pid).past = true ↔ s.lock = some pid

/-- Nobody runs, and nobody has the lock. -/
theorem inv_init : Inv init := ⟨fun _ _ => rfl, fun _ => rfl, fun _ => by simp [init, Pc.past]⟩

/-- A process that is there has been started. -/
theorem Inv.lt_next (h : Inv s) (hpc : s.pc pid ≠ .gone) : pid < s.next :=
  Nat.lt_of_not_le fun hle => hpc (h.fresh pid hle)

/-- A process moves on without crossing the lock. -/
theorem Inv.set (h : Inv s) (hpc : s.pc pid ≠ .gone) (hpast : pc.past = (s.pc pid).past) :
    Inv (s.set pid pc) := by
  refine ⟨fun q hq => ?_, h.quiet, fun q => ?_⟩
  · have hne : q ≠ pid := Nat.ne_of_gt (Nat.lt_of_lt_of_le (h.lt_next hpc) hq)
    simp only [Sys.set, Function.update_of_ne hne]
    exact h.fresh q hq
  · by_cases hq : q = pid
    · rw [hq]
      simp only [Sys.set, Function.update_self, hpast]
      exact h.holder pid
    · simp only [Sys.set, Function.update_of_ne hq]
      exact h.holder q

/-- A new process does not have the lock. -/
theorem Inv.spawn (h : Inv s) (hpast : pc.past = false) : Inv (s.spawn pc) := by
  refine ⟨fun q hq => ?_, h.quiet, fun q => ?_⟩
  · have hne : q ≠ s.next := Nat.ne_of_gt hq
    simp only [Sys.spawn, Function.update_of_ne hne]
    exact h.fresh q (Nat.le_of_succ_le hq)
  · by_cases hq : q = s.next
    · have hfree : s.lock ≠ some s.next := fun hlock => by
        have hp := (h.holder s.next).mpr hlock
        rw [h.fresh _ (Nat.le_refl _)] at hp
        cases hp
      simp only [Sys.spawn, hq, Function.update_self, hpast, hfree, Bool.false_eq_true]
    · simp only [Sys.spawn, Function.update_of_ne hq]
      exact h.holder q

/-- A new pipe has its ends with the process that has made it. -/
theorem Inv.newPipe (h : Inv s) : Inv s.newPipe := by
  refine ⟨h.fresh, fun p => ?_, h.holder⟩
  by_cases hp : p = s.pipes
  · simp only [Sys.newPipe, hp, Function.update_self]
  · simp only [Sys.newPipe, Function.update_of_ne hp]
    exact h.quiet p

/-- Only the process that has the lock can give it back. -/
theorem Inv.unlock_eq (h : Inv s) (hpast : (s.pc pid).past = false) : s.unlock pid = s := by
  have hlock : s.lock ≠ some pid := fun hlock => by
    rw [(h.holder pid).mpr hlock] at hpast
    cases hpast
  rw [Sys.unlock, if_neg hlock]

/-- A process that is gone has nothing any more: the kernel takes back its lock and closes its
    ends. -/
theorem Inv.leave (h : Inv s) (pid : Pid) : Inv (s.leave pid) := by
  refine ⟨fun q hq => ?_, h.quiet, fun q => ?_⟩
  · by_cases hq' : q = pid
    · simp only [Sys.leave, Sys.set, hq', Function.update_self]
    · simp only [Sys.leave, Sys.set, Sys.unlock, Function.update_of_ne hq']
      exact h.fresh q hq
  · by_cases hq : q = pid
    · simp only [Sys.leave, Sys.set, Sys.unlock, hq, Function.update_self, Pc.past]
      split <;> simp [*]
    · simp only [Sys.leave, Sys.set, Sys.unlock, Function.update_of_ne hq, h.holder q]
      split
      · rename_i hlock
        simp [hlock, Ne.symm hq]
      · rfl

/-- The lock is free, and the process takes it; before that nobody was past the lock. -/
theorem Inv.locked (h : Inv s) (hpc : s.pc pid = .main)
    (hfree : s.lock = none ∨ s.lock = some pid) :
    Inv ({ s with lock := some pid }.set pid .locked) := by
  have hlive : s.pc pid ≠ .gone := by rw [hpc]; nofun
  have hnone : s.lock = none := by
    refine hfree.resolve_right fun hlock => ?_
    have hp := (h.holder pid).mpr hlock
    rw [hpc] at hp
    cases hp
  refine ⟨fun q hq => ?_, h.quiet, fun q => ?_⟩
  · have hne : q ≠ pid := Nat.ne_of_gt (Nat.lt_of_lt_of_le (h.lt_next hlive) hq)
    simp only [Sys.set, Function.update_of_ne hne]
    exact h.fresh q hq
  · by_cases hq : q = pid
    · simp only [Sys.set, hq, Function.update_self, Pc.past]
    · have hpast := h.holder q
      simp only [hnone, reduceCtorEq, iff_false] at hpast
      simp only [Sys.set, Function.update_of_ne hq]
      exact ⟨fun hp => absurd hp hpast, fun hlock => absurd (Option.some.inj hlock).symm hq⟩

/-- The calls whose failure brings a daemon back from `Daemon::run`. -/
def Act.Fails : Act → Prop
  | .construct _ ok | .exec _ ok => ok = false
  | _ => False

instance (a : Act) : Decidable a.Fails :=
  match a with
  | .construct _ ok | .exec _ ok => inferInstanceAs (Decidable (ok = false))
  | .start | .lock .. | .fork .. | .forkAgain .. | .wait _ | .quit _ | .prepare _ | .poll _
  | .interrupted _ | .exit _ | .kill _ => .isFalse id

/-- **A step keeps the invariant** unless a `Forwarder` or an `execl` fails in it: whoever is past
    the lock has it, so there is only one such process. -/
theorem inv_step (h : Inv s) (ha : ¬ a.Fails) (hst : step s a = some s') : Inv s' := by
  cases move_of_step h.quiet hst with
  | started => exact h.spawn rfl
  | locked pid hpc hfree => exact h.locked hpc hfree
  | refused pid | quit pid | exited pid | killed pid => exact h.leave pid
  | forked pid hpc =>
    have hchild : Inv (s.newPipe.spawn (.child s.pipes)) := h.newPipe.spawn rfl
    have hlt : pid ≠ s.next := Nat.ne_of_lt (h.lt_next (by rw [hpc]; nofun))
    have hpc' : (s.newPipe.spawn (.child s.pipes)).pc pid = .locked :=
      (Function.update_of_ne hlt ..).trans hpc
    exact hchild.set (by rw [hpc']; nofun) (by rw [hpc']; rfl)
  | forkedAgain pid p hpc =>
    have hdaemon : Inv (s.spawn (.daemon p)) := h.spawn rfl
    have hlt : pid ≠ s.next := Nat.ne_of_lt (h.lt_next (by rw [hpc]; nofun))
    have hpc' : (s.spawn (.daemon p)).pc pid = .child p :=
      (Function.update_of_ne hlt ..).trans hpc
    exact hdaemon.set (by rw [hpc']; nofun) (by rw [hpc']; rfl)
  | prepared pid p hpc =>
    rw [h.unlock_eq (by rw [hpc]; rfl)]
    exact h.set (by rw [hpc]; nofun) (by rw [hpc]; rfl)
  | unforked pid hpc | unforkedAgain pid p hpc | waited pid p c hpc | constructed pid fd hpc
  | hungUp pid p hpc | interrupted pid p hpc | executed pid hpc =>
    exact h.set (by rw [hpc]; nofun) (by rw [hpc]; rfl)
  | unconstructed | unexecuted => exact absurd rfl ha

/-- **One server.**  In every run in which each `Forwarder` is set up and each `execl` succeeds,
    whatever is started, killed or refused, at most one process serves, and it has the lock. -/
theorem one_forwarder (acts : List Act) (s : Sys) (hacts : ∀ a ∈ acts, ¬ a.Fails)
    (hrun : exec step init acts = some s) (pid : Pid) (fd : Option PipeId)
    (hpid : s.pc pid = .loop fd) :
    s.lock = some pid ∧ ∀ q fd', s.pc q = .loop fd' → q = pid := by
  have hinv : Inv s := exec_invariant_along (fun _ _ _ h ha hst => inv_step h ha hst) inv_init
    (along_of_forall hacts _) hrun
  have hlock : s.lock = some pid := (hinv.holder pid).mp (by rw [hpid]; rfl)
  refine ⟨hlock, fun q fd' hq => ?_⟩
  have hlock' : s.lock = some q := (hinv.holder q).mp (by rw [hq]; rfl)
  exact Option.some.inj (hlock'.symm.trans hlock)

/-- The way of a copy of the program to its loop, with its two children. -/
def Act.toLoop (pid child : Pid) : List Act :=
  [.lock pid true, .fork pid true, .forkAgain child true, .exit child, .wait pid,
    .construct pid true]

/-- The server is killed; its daemon takes its place before a second copy gets to the lock. -/
theorem one_forwarder_revived : ∃ s, exec step init
      ([.start] ++ Act.toLoop 0 1 ++ [.prepare 2, .kill 0, .start, .poll 2, .exec 2 true] ++
        Act.toLoop 2 4 ++ [.lock 3 true]) = some s ∧
    s.pc 2 = .loop (some 1) ∧ s.pc 3 = .gone ∧ ∀ q fd, s.pc q = .loop fd → q = 2 := by
  obtain ⟨s, hrun, htest⟩ := exists_of_exec_any
    (show (exec step init ([.start] ++ Act.toLoop 0 1 ++
        [.prepare 2, .kill 0, .start, .poll 2, .exec 2 true] ++ Act.toLoop 2 4 ++
        [.lock 3 true])).any (fun s => s.pc 2 = .loop (some 1) ∧ s.pc 3 = .gone) = true
      by decide +kernel)
  obtain ⟨hloop, hgone⟩ := of_decide_eq_true htest
  exact ⟨s, hrun, hloop, hgone, (one_forwarder _ s (by decide +kernel) hrun 2 _ hloop).2⟩

-- The first `Forwarder` fails.  Its daemon reads the status and sets up a `Forwarder` of its own,
-- while another copy takes the lock: both serve.
example : (exec step init ([.start, .lock 0 true, .fork 0 true, .forkAgain 1 true, .exit 1, .wait 0,
      .construct 0 false, .exit 0, .prepare 2, .poll 2, .construct 2 true, .start] ++
      Act.toLoop 3 4)).any (fun s => s.pc 2 = .loop none ∧ s.pc 3 = .loop (some 1)) = true := by
  decide +kernel

/-! ### The service comes back -/

/-- The process is a daemon that will notice when the pipe hangs up. -/
def Pc.watches (p : PipeId) : Pc → Bool
  | .daemon q | .poll q => p = q
  | _ => false

/-- A process holds the read end of the pipe, or is about to. -/
def Watched (f : Pid → Pc) (p : PipeId) : Prop := ∃ g, (f g).watches p = true

/-- What a process on its way to the loop, or in it, has beside it: a daemon, or the child that will
    fork one. -/
def Guarded (next : Pid) (f : Pid → Pc) : Pc → Prop
  | .waiting p c => c < next ∧
      (f c = .child p ∨ (f c = .exiting (some p) ∨ f c = .gone) ∧ Watched f p)
  | .ready fd | .loop fd => ∃ p, fd = some p ∧ Watched f p
  | .gone | .main | .locked | .child _ | .daemon _ | .poll _ | .sleeping | .exiting _ => True

/-- The process is there to serve, sooner or later. -/
def Pc.carries : Pc → Bool
  | .gone | .exiting _ => false
  | .main | .locked | .waiting .. | .ready _ | .loop _ | .child _ | .daemon _ | .poll _
  | .sleeping => true

/-- What holds while only servers die: a server has a daemon that watches its pipe, or a child that
    is about to fork one, and some process carries on the line of the servers. -/
structure Alive (s : Sys) : Prop extends Inv s where
  guarded : ∀ pid, Guarded s.next s.pc (s.pc pid)
  carried : ∃ pid, (s.pc pid).carries = true

/-- The process is in its loop. -/
def Pc.serves : Pc → Bool
  | .loop _ => true
  | _ => false

/-- The failures that the daemon is made for: a process is killed only when it serves. -/
def Faithful (s : Sys) : Act → Prop
  | .lock _ ok | .fork _ ok | .forkAgain _ ok | .construct _ ok | .exec _ ok => ok = true
  | .kill pid => (s.pc pid).serves = true
  | .interrupted _ => False
  | .start | .wait _ | .quit _ | .prepare _ | .poll _ | .exit _ => True

instance (s : Sys) (a : Act) : Decidable (Faithful s a) :=
  match a with
  | .lock _ ok | .fork _ ok | .forkAgain _ ok | .construct _ ok | .exec _ ok =>
    inferInstanceAs (Decidable (ok = true))
  | .kill pid => inferInstanceAs (Decidable ((s.pc pid).serves = true))
  | .interrupted _ => .isFalse id
  | .start | .wait _ | .quit _ | .prepare _ | .poll _ | .exit _ => .isTrue trivial

/-- The only point at which a process serves is its loop. -/
theorem eq_loop_of_serves (h : pc.serves = true) : ∃ fd, pc = .loop fd := by
  cases pc with
  | loop fd => exact ⟨fd, rfl⟩
  | _ => cases h

/-- Where only servers die, no `Forwarder` and no `execl` fails. -/
theorem not_fails_of_faithful (ha : Faithful s a) : ¬ a.Fails := by
  cases a <;> simp_all [Faithful, Act.Fails]

variable {next : Pid} {f : Pid → Pc}

/-- A new process is nobody's child or daemon yet, and it watches no pipe of the others. -/
theorem guarded_spawn (hfresh : f next = .gone) (h : ∀ q, Guarded next f (f q))
    (hpc : Guarded (next + 1) (Function.update f next pc) pc) (q : Pid) :
    Guarded (next + 1) (Function.update f next pc) (Function.update f next pc q) := by
  -- the new process is not the one that watches
  have hwatched : ∀ {p}, Watched f p → Watched (Function.update f next pc) p := by
    rintro p ⟨g, hg⟩
    have hne : g ≠ next := by
      rintro rfl
      rw [hfresh] at hg
      cases hg
    exact ⟨g, by rw [Function.update_of_ne hne, hg]⟩
  by_cases hq : q = next
  · rw [hq, Function.update_self]
    exact hpc
  · rw [Function.update_of_ne hq]
    have hold := h q
    cases hpcq : f q with
    -- the child of a process that waits is an older one
    | waiting p c =>
      rw [hpcq] at hold
      obtain ⟨hlt, hchild⟩ := hold
      refine ⟨Nat.lt_succ_of_lt hlt, ?_⟩
      rw [Function.update_of_ne (Nat.ne_of_lt hlt)]
      exact hchild.imp_right fun h => ⟨h.1, hwatched h.2⟩
    | ready fd | loop fd =>
      rw [hpcq] at hold
      obtain ⟨p, hfd, hw⟩ := hold
      exact ⟨p, hfd, hwatched hw⟩
    | gone | main | locked | child | daemon | poll | sleeping | exiting => trivial

/-- A process moves on: a daemon stays where a process writes its pipe, a child goes only when
    there is a daemon, and what has ended does not come back. -/
theorem guarded_set (h : ∀ q, Guarded next f (f q))
    (hpc : Guarded next (Function.update f pid pc) pc)
    (hwatch : ∀ p, (f pid).watches p = true → pc.watches p = true ∨
      ∀ q, (f q).writes p = false)
    (hchild : ∀ p, f pid = .child p → pc = .exiting (some p) ∧ Watched f p)
    (hexit : ∀ p, f pid = .exiting (some p) → pc = .gone) (hgone : f pid ≠ .gone) (q : Pid) :
    Guarded next (Function.update f pid pc) (Function.update f pid pc q) := by
  -- a pipe that somebody can write is still watched after the step
  have hwatched : ∀ {p}, (f q).writes p = true → Watched f p →
      Watched (Function.update f pid pc) p := by
    rintro p hq ⟨g, hg⟩
    by_cases hgp : g = pid
    · rw [hgp] at hg
      rcases hwatch p hg with hg | hno
      · exact ⟨pid, by rw [Function.update_self, hg]⟩
      · rw [hno q] at hq
        cases hq
    · exact ⟨g, by rw [Function.update_of_ne hgp, hg]⟩
  by_cases hq : q = pid
  · rw [hq, Function.update_self]
    exact hpc
  · rw [Function.update_of_ne hq]
    have hold := h q
    cases hpcq : f q with
    | waiting p c =>
      rw [hpcq] at hold hwatched
      obtain ⟨hlt, hc⟩ := hold
      refine ⟨hlt, ?_⟩
      have hw := hwatched (p := p) (by simp [Pc.writes])
      -- the child itself makes the step: it forks the daemon and exits, or is gone
      by_cases hcp : c = pid
      · rw [hcp] at hc ⊢
        rw [Function.update_self]
        rcases hc with hc | ⟨hc | hc, hwc⟩
        · obtain ⟨hpc, hwc⟩ := hchild p hc
          exact .inr ⟨.inl hpc, hw hwc⟩
        · exact .inr ⟨.inr (hexit p hc), hw hwc⟩
        · exact absurd hc hgone
      · rw [Function.update_of_ne hcp]
        exact hc.imp_right fun h => ⟨h.1, hw h.2⟩
    | ready fd | loop fd =>
      rw [hpcq] at hold hwatched
      obtain ⟨p, hfd, hw⟩ := hold
      exact ⟨p, hfd, hwatched (by simp [Pc.writes, hfd]) hw⟩
    | gone | main | locked | child | daemon | poll | sleeping | exiting => trivial

/-- The process is neither a child nor a daemon. -/
def Pc.plain : Pc → Bool
  | .main | .locked | .waiting .. | .ready _ | .loop _ | .sleeping => true
  | .gone | .child _ | .daemon _ | .poll _ | .exiting _ => false

/-- Nobody counts on such a process. -/
theorem guarded_plain (h : ∀ q, Guarded next f (f q)) (hplain : (f pid).plain = true)
    (hpc : Guarded next (Function.update f pid pc) pc) (q : Pid) :
    Guarded next (Function.update f pid pc) (Function.update f pid pc q) := by
  refine guarded_set h hpc ?_ ?_ ?_ ?_ q <;> cases hpid : f pid <;>
    simp_all [Pc.plain, Pc.watches]

/-- A process that does not watch the pipe may do anything: another one still watches it. -/
theorem watched_set (hw : Watched f p) (hpid : (f pid).watches p = false) :
    Watched (Function.update f pid pc) p := by
  obtain ⟨g, hg⟩ := hw
  have hne : g ≠ pid := by
    rintro rfl
    rw [hpid] at hg
    cases hg
  exact ⟨g, by rw [Function.update_of_ne hne, hg]⟩

/-- Who watches a pipe carries on the line of the servers. -/
theorem carries_of_watches (h : pc.watches p = true) : pc.carries = true := by
  cases pc <;> first | rfl | cases h

/-- Who is past the lock does, too. -/
theorem carries_of_past (h : pc.past = true) : pc.carries = true := by
  cases pc <;> first | rfl | cases h

/-- Nobody has the write end of a pipe that has hung up. -/
theorem Inv.not_writes (h : Inv s) (hhup : s.HungUp p) (q : Pid) : (s.pc q).writes p = false := by
  by_cases hq : q < s.next
  · exact hhup q hq
  · rw [h.fresh q (Nat.le_of_not_lt hq)]
    rfl

/-- Another process carries on. -/
theorem carried_of_ne (hq : (s.pc q).carries = true) (hne : q ≠ pid) :
    ∃ g, ((s.set pid pc).pc g).carries = true :=
  ⟨q, (congrArg Pc.carries (Function.update_of_ne hne ..)).trans hq⟩

/-- A server leaves its daemon behind. -/
theorem carried_leave {fd : Option PipeId} (h : Alive s) (hpc : s.pc pid = .loop fd) :
    ∃ g, ((s.leave pid).pc g).carries = true := by
  have hguard := h.guarded pid
  rw [hpc] at hguard
  obtain ⟨p, -, g, hg⟩ := hguard
  have hne : g ≠ pid := by
    rintro rfl
    rw [hpc] at hg
    cases hg
  exact carried_of_ne (s := s.unlock pid) (carries_of_watches hg) hne

/-- **Everybody is guarded** after a step, too.  A server gets its pipe together with a child, and a
    child goes only when its daemon is there. -/
theorem guarded_step (h : Alive s) (hst : step s a = some s') (ha : Faithful s a) :
    ∀ q, Guarded s'.next s'.pc (s'.pc q) := by
  cases move_of_step h.quiet hst with
  | started => exact guarded_spawn (h.fresh _ (Nat.le_refl _)) h.guarded trivial
  | locked pid hpc | executed pid hpc | refused pid ok hpc | quit pid fd hpc =>
    exact guarded_plain h.guarded (congrArg Pc.plain hpc) trivial
  | killed pid =>
    obtain ⟨fd, hpc⟩ := eq_loop_of_serves ha
    exact guarded_plain h.guarded (congrArg Pc.plain hpc) trivial
  | exited pid fd hpc =>
    exact guarded_set (f := s.pc) h.guarded trivial (by simp [hpc, Pc.watches]) (by simp [hpc])
      (fun _ _ => rfl) (by simp [hpc])
  | forked pid hpc =>
    have hne : pid ≠ s.next := Nat.ne_of_lt (h.lt_next (by rw [hpc]; nofun))
    have hpc' : Function.update s.pc s.next (.child s.pipes) pid = .locked :=
      (Function.update_of_ne hne ..).trans hpc
    refine guarded_plain (guarded_spawn (h.fresh _ (Nat.le_refl _)) h.guarded trivial)
      (congrArg Pc.plain hpc') ⟨Nat.lt_succ_self _, .inl ?_⟩
    exact (Function.update_of_ne hne.symm ..).trans (Function.update_self ..)
  | forkedAgain pid p hpc =>
    have hne : pid ≠ s.next := Nat.ne_of_lt (h.lt_next (by rw [hpc]; nofun))
    have hpc' : Function.update s.pc s.next (.daemon p) pid = .child p :=
      (Function.update_of_ne hne ..).trans hpc
    have hwatched : Watched (Function.update s.pc s.next (.daemon p)) p :=
      ⟨s.next, by simp [Pc.watches]⟩
    refine guarded_set (f := Function.update s.pc s.next (.daemon p))
      (guarded_spawn (h.fresh _ (Nat.le_refl _)) h.guarded trivial) trivial
      (by simp [hpc', Pc.watches]) (fun p' hchild => ?_) (by simp [hpc']) (by simp [hpc'])
    rw [hpc'] at hchild
    cases hchild
    exact ⟨rfl, hwatched⟩
  | waited pid p c hpc hgone =>
    have hguard := h.guarded pid
    rw [hpc] at hguard
    have hw : Watched s.pc p := by
      rcases hguard.2 with hc | hc
      · exact absurd (hgone.symm.trans hc) nofun
      · exact hc.2
    exact guarded_plain h.guarded (congrArg Pc.plain hpc)
      ⟨p, rfl, watched_set hw (by rw [hpc]; rfl)⟩
  | constructed pid fd hpc =>
    have hguard := h.guarded pid
    rw [hpc] at hguard
    obtain ⟨p, hfd, hw⟩ := hguard
    exact guarded_plain h.guarded (congrArg Pc.plain hpc)
      ⟨p, hfd, watched_set hw (by rw [hpc]; rfl)⟩
  | prepared pid p hpc =>
    refine guarded_set (f := s.pc) h.guarded trivial (fun p' hp' => .inl ?_) (by simp [hpc])
      (by simp [hpc]) (by simp [hpc])
    rw [hpc] at hp'
    exact hp'
  | hungUp pid p hpc hhup =>
    refine guarded_set h.guarded trivial (fun p' hp' => .inr ?_) ?_ ?_ ?_
    · -- the daemon of a pipe that nobody writes
      simp only [hpc, Pc.watches, decide_eq_true_eq] at hp'
      rw [hp']
      exact h.not_writes hhup
    all_goals simp [hpc]
  | interrupted => exact ha.elim
  | unforked | unforkedAgain | unconstructed | unexecuted => cases ha

/-- **Somebody carries on** after a step: who is refused the lock leaves its holder behind, and a
    server leaves its daemon. -/
theorem carried_step (h : Alive s) (hst : step s a = some s') (ha : Faithful s a) :
    ∃ q, (s'.pc q).carries = true := by
  cases move_of_step h.quiet hst with
  | started => exact ⟨s.next, by simp [Sys.spawn, Pc.carries]⟩
  | locked pid | forked pid | waited pid | constructed pid | prepared pid | hungUp pid
  | executed pid => exact ⟨pid, by simp [Sys.set, Pc.carries]⟩
  | refused pid ok hpc hheld =>
    -- the holder of the lock is another process, and it carries on
    obtain ⟨q, hlock⟩ := Option.ne_none_iff_exists'.mp (hheld ha)
    have hpast := (h.holder q).mpr hlock
    have hne : q ≠ pid := by
      rintro rfl
      rw [hpc] at hpast
      cases hpast
    exact carried_of_ne (s := s.unlock pid) (carries_of_past hpast) hne
  -- the first child exits, and the daemon that it has forked carries on
  | forkedAgain pid p hpc =>
    have hne : s.next ≠ pid := Nat.ne_of_gt (h.lt_next (by rw [hpc]; nofun))
    exact carried_of_ne (q := s.next) (by simp [Sys.spawn, Pc.carries]) hne
  | exited pid fd hpc =>
    obtain ⟨q, hq⟩ := h.carried
    have hne : q ≠ pid := by
      rintro rfl
      rw [hpc] at hq
      cases hq
    exact carried_of_ne (s := s.unlock pid) hq hne
  | quit pid fd hpc => exact carried_leave h hpc
  | killed pid =>
    obtain ⟨fd, hpc⟩ := eq_loop_of_serves ha
    exact carried_leave h hpc
  | interrupted => exact ha.elim
  | unforked | unforkedAgain | unconstructed | unexecuted => cases ha

/-- **A step keeps the line alive** as long as only servers die: a server that dies leaves a daemon
    that watches its pipe. -/
theorem alive_step (h : Alive s) (hst : step s a = some s') (ha : Faithful s a) : Alive s' :=
  { inv_step h.toInv (not_fails_of_faithful ha) hst with
    guarded := guarded_step h hst ha
    carried := carried_step h hst ha }

/-! ### From every state to a server -/

/-- The processes that are there can bring the system to a state with a server. -/
def Returns (s : Sys) : Prop :=
  ∃ acts s', (∀ a ∈ acts, a ≠ .start) ∧ exec step s acts = some s' ∧ ∃ pid fd, s'.pc pid = .loop fd

/-- A server comes back if it does after a step that starts nobody. -/
theorem Returns.of_step (h : Returns s') (hst : step s a = some s') (ha : a ≠ .start) :
    Returns s := by
  obtain ⟨acts, u, hacts, hrun, hloop⟩ := h
  exact ⟨a :: acts, u, List.forall_mem_cons.mpr ⟨ha, hacts⟩, exec_cons_eq_some.mpr ⟨s', hst, hrun⟩,
    hloop⟩

/-- A process whose `Forwarder` is set up goes into its loop. -/
theorem returns_ready {fd : Option PipeId} (pid : Pid) (hpc : s.pc pid = .ready fd) :
    Returns s := by
  refine ⟨[.construct pid true], s.set pid (.loop fd), by simp, ?_, pid, fd, ?_⟩
  · simp only [exec, step, hpc, if_true, Option.bind_some]
  · simp only [Sys.set, Function.update_self]

/-- The parent waits for its first child, which makes the daemon and ends; then it comes to its
    loop. -/
theorem returns_waiting {c : Pid} (h : Alive s) (hpc : s.pc pid = .waiting p c) : Returns s := by
  -- backwards from the end: the child is gone, it exits, and it forks the daemon
  have hgone : ∀ {s : Sys}, s.pc pid = .waiting p c → s.pc c = .gone → Returns s := by
    intro s hpc hgone
    have hst : step s (.wait pid) = some (s.set pid (.ready (some p))) := by
      simp only [step, hpc, hgone, if_true]
    have hready : Returns (s.set pid (.ready (some p))) :=
      returns_ready pid (Function.update_self ..)
    exact hready.of_step hst nofun
  have hexiting : ∀ {s : Sys}, s.pc pid = .waiting p c → s.pc c = .exiting (some p) →
      Returns s := by
    intro s hpc hc
    have hne : pid ≠ c := by
      rintro rfl
      exact absurd (hpc.symm.trans hc) nofun
    have hst : step s (.exit c) = some (s.leave c) := by simp only [step, hc]
    have hleft : Returns (s.leave c) :=
      hgone ((Function.update_of_ne hne ..).trans hpc) (Function.update_self ..)
    exact hleft.of_step hst nofun
  have hguard := h.guarded pid
  rw [hpc] at hguard
  rcases hguard.2 with hc | ⟨hc | hc, -⟩
  · have hne : pid ≠ c := by
      rintro rfl
      exact absurd (hpc.symm.trans hc) nofun
    have hlt : pid ≠ s.next := Nat.ne_of_lt (h.lt_next (by rw [hpc]; nofun))
    have hst : step s (.forkAgain c true) =
        some ((s.spawn (.daemon p)).set c (.exiting (some p))) := by
      simp only [step, hc, if_true]
    have hpc' : ((s.spawn (.daemon p)).set c (.exiting (some p))).pc pid = .waiting p c :=
      (Function.update_of_ne hne ..).trans ((Function.update_of_ne hlt ..).trans hpc)
    exact (hexiting hpc' (Function.update_self ..)).of_step hst nofun
  · exact hexiting hpc hc
  · exact hgone hpc hc

/-- The process that has the lock gets to its loop. -/
theorem returns_past (h : Alive s) (hpast : (s.pc pid).past = true) : Returns s := by
  cases hpc : s.pc pid with
  | locked =>
    have hst : step s (.fork pid true) =
        some ((s.newPipe.spawn (.child s.pipes)).set pid (.waiting s.pipes s.next)) := by
      simp only [step, hpc, if_true]
    have halive := alive_step h hst rfl
    exact (returns_waiting halive (Function.update_self ..)).of_step hst nofun
  | waiting p c => exact returns_waiting h hpc
  | ready fd => exact returns_ready pid hpc
  | loop fd => exact ⟨[], s, nofun, rfl, pid, fd, hpc⟩
  | gone | main | child | daemon | poll | sleeping | exiting =>
    rw [hpc] at hpast
    cases hpast

/-- A process that finds the lock free takes it and forks its daemon. -/
theorem returns_main (h : Alive s) (hpc : s.pc pid = .main) (hfree : s.lock = none) :
    Returns s := by
  have hst : step s (.lock pid true) = some ({ s with lock := some pid }.set pid .locked) := by
    simp only [step, hpc, hfree, true_or, and_self, if_true]
  have hpast : ((({ s with lock := some pid } : Sys).set pid .locked).pc pid).past = true := by
    simp only [Sys.set, Function.update_self, Pc.past]
  exact (returns_past (alive_step h hst rfl) hpast).of_step hst nofun

/-- A daemon that has slept executes the program again, which finds the lock free. -/
theorem returns_sleeping (h : Alive s) (hpc : s.pc pid = .sleeping) (hfree : s.lock = none) :
    Returns s := by
  have hst : step s (.exec pid true) = some (s.set pid .main) := by
    simp only [step, hpc, if_true]
  exact (returns_main (alive_step h hst rfl) (Function.update_self ..) hfree).of_step hst nofun

/-- The steps a child and a daemon take until they have closed the write end. -/
def Pc.rank : Pc → Nat
  | .child _ => 3
  | .daemon _ | .exiting _ => 1
  | _ => 0

/-- How far the processes are from the end, all together. -/
def rank (s : Sys) : Nat := ∑ pid ∈ Finset.range s.next, (s.pc pid).rank

/-- A process that goes on changes the sum by its own rank only, so that a step towards the end
    makes it smaller. -/
theorem rank_set (pc : Pc) (hlt : pid < s.next) :
    rank (s.set pid pc) + (s.pc pid).rank = rank s + pc.rank := by
  have hmem : pid ∈ Finset.range s.next := Finset.mem_range.mpr hlt
  have hrest : ∑ q ∈ (Finset.range s.next).erase pid, (Function.update s.pc pid pc q).rank =
      ∑ q ∈ (Finset.range s.next).erase pid, (s.pc q).rank :=
    Finset.sum_congr rfl fun q hq => by
      rw [Function.update_of_ne (Finset.ne_of_mem_erase hq)]
  have hold : (s.pc pid).rank + ∑ q ∈ (Finset.range s.next).erase pid, (s.pc q).rank = rank s :=
    Finset.add_sum_erase _ (fun q => (s.pc q).rank) hmem
  have hnew : (Function.update s.pc pid pc pid).rank +
      ∑ q ∈ (Finset.range s.next).erase pid, (Function.update s.pc pid pc q).rank =
        rank (s.set pid pc) :=
    Finset.add_sum_erase _ (fun q => (Function.update s.pc pid pc q).rank) hmem
  rw [Function.update_self, hrest] at hnew
  omega

/-- A new process adds its rank. -/
theorem rank_spawn : rank (s.spawn pc) = rank s + pc.rank := by
  simp only [rank, Sys.spawn, Finset.sum_range_succ, Function.update_self]
  congr 1
  refine Finset.sum_congr rfl fun q hq => ?_
  rw [Function.update_of_ne (Nat.ne_of_lt (Finset.mem_range.mp hq))]

/-- **The daemon wakes up.**  While the lock is free, the processes that keep its pipe open are
    children and daemons, and they close it. -/
theorem returns_poll (h : Alive s) (hpc : s.pc pid = .poll p) (hfree : s.lock = none) :
    Returns s := by
  -- by induction on the rank: whoever has the write end takes a step towards its end
  generalize hn : rank s = n
  induction n using Nat.strongRecOn generalizing s with
  | _ n ih =>
    by_cases hhup : s.HungUp p
    · have hst : step s (.poll pid) = some (s.set pid .sleeping) := by
        simp only [step, hpc, h.quiet p, if_pos hhup]
      exact (returns_sleeping (alive_step h hst trivial) (Function.update_self ..) hfree).of_step
        hst nofun
    · simp only [Sys.HungUp, not_forall, Bool.not_eq_false] at hhup
      obtain ⟨q, hq, hwrites⟩ := hhup
      -- it is another process, and it has not got the lock, as this is free
      have hne : pid ≠ q := by
        rintro rfl
        rw [hpc] at hwrites
        cases hwrites
      have hpast : (s.pc q).past = false := by
        cases hpast : (s.pc q).past with
        | false => rfl
        | true => exact absurd (hfree.symm.trans ((h.holder q).mp hpast)) nofun
      cases hpcq : s.pc q with
      | child p' =>
        have hst : step s (.forkAgain q true) =
            some ((s.spawn (.daemon p')).set q (.exiting (some p'))) := by
          simp only [step, hpcq, if_true]
        have hlt : pid ≠ s.next := Nat.ne_of_lt (h.lt_next (by rw [hpc]; nofun))
        have hrank : rank ((s.spawn (.daemon p')).set q (.exiting (some p'))) < n := by
          have hset := rank_set (s := s.spawn (.daemon p')) (.exiting (some p'))
            (Nat.lt_succ_of_lt hq)
          have hpc' : (s.spawn (.daemon p')).pc q = .child p' :=
            (Function.update_of_ne (Nat.ne_of_lt hq) ..).trans hpcq
          rw [hpc', rank_spawn] at hset
          simp only [Pc.rank] at hset
          omega
        exact (ih _ hrank (alive_step h hst rfl)
          ((Function.update_of_ne hne ..).trans ((Function.update_of_ne hlt ..).trans hpc))
          hfree rfl).of_step hst nofun
      | daemon p' =>
        have hst : step s (.prepare q) = some (s.set q (.poll p')) := by
          simp only [step, hpcq, h.unlock_eq hpast]
        have hrank : rank (s.set q (.poll p')) < n := by
          have hset := rank_set (.poll p') hq
          rw [hpcq] at hset
          simp only [Pc.rank] at hset
          omega
        exact (ih _ hrank (alive_step h hst trivial) ((Function.update_of_ne hne ..).trans hpc)
          hfree rfl).of_step hst nofun
      | exiting fd =>
        have hst : step s (.exit q) = some (s.set q .gone) := by
          simp only [step, hpcq, Sys.leave, h.unlock_eq hpast]
        have hrank : rank (s.set q .gone) < n := by
          have hset := rank_set .gone hq
          rw [hpcq] at hset
          simp only [Pc.rank] at hset
          omega
        exact (ih _ hrank (alive_step h hst trivial) ((Function.update_of_ne hne ..).trans hpc)
          hfree rfl).of_step hst nofun
      | locked | waiting | ready | loop =>
        rw [hpcq] at hpast
        cases hpast
      -- these have no write end
      | gone | main | poll | sleeping =>
        rw [hpcq] at hwrites
        cases hwrites

/-- A daemon finds that its pipe has hung up when the processes that have the write end are gone. -/
theorem returns_daemon (h : Alive s) (hpc : s.pc pid = .daemon p) (hfree : s.lock = none) :
    Returns s := by
  have hst : step s (.prepare pid) = some (s.set pid (.poll p)) := by
    simp only [step, hpc, h.unlock_eq (congrArg Pc.past hpc)]
  exact (returns_poll (alive_step h hst trivial) (Function.update_self ..) hfree).of_step hst nofun

/-- A child becomes the daemon. -/
theorem returns_child (h : Alive s) (hpc : s.pc pid = .child p) (hfree : s.lock = none) :
    Returns s := by
  have hst : step s (.forkAgain pid true) =
      some ((s.spawn (.daemon p)).set pid (.exiting (some p))) := by
    simp only [step, hpc, if_true]
  have hne : s.next ≠ pid := Nat.ne_of_gt (h.lt_next (by rw [hpc]; nofun))
  have hdaemon : ((s.spawn (.daemon p)).set pid (.exiting (some p))).pc s.next = .daemon p :=
    (Function.update_of_ne hne ..).trans (Function.update_self ..)
  exact (returns_daemon (alive_step h hst rfl) hdaemon hfree).of_step hst nofun

/-- **A server comes back** from every state in which the line is alive: by the place of a process
    that carries it on. -/
theorem returns_of_alive (h : Alive s) : Returns s := by
  cases hlock : s.lock with
  | some q => exact returns_past h ((h.holder q).mpr hlock)
  | none =>
    obtain ⟨pid, hcarries⟩ := h.carried
    cases hpc : s.pc pid with
    | main => exact returns_main h hpc hlock
    | sleeping => exact returns_sleeping h hpc hlock
    | poll p => exact returns_poll h hpc hlock
    | daemon p => exact returns_daemon h hpc hlock
    | child p => exact returns_child h hpc hlock
    | locked | waiting | ready | loop => exact returns_past h (congrArg Pc.past hpc)
    | gone | exiting =>
      rw [hpc] at hcarries
      cases hcarries

/-- One copy was started. -/
theorem alive_started : Alive (init.spawn .main) where
  toInv := inv_init.spawn rfl
  guarded := guarded_spawn rfl (fun _ => trivial) trivial
  carried := ⟨0, rfl⟩

/-- **The service comes back.**  The program is started.  If from then on a process dies only
    while it serves, by a signal or by leaving its loop, and no other call fails, then from every
    state that is reached the processes that are there can bring up a server. -/
theorem forwarder_returns (acts : List Act) (s : Sys)
    (hacts : Along step Faithful (init.spawn .main) acts)
    (hrun : exec step (init.spawn .main) acts = some s) :
    ∃ more s', (∀ a ∈ more, a ≠ .start) ∧ exec step s more = some s' ∧
      ∃ pid fd, s'.pc pid = .loop fd :=
  returns_of_alive <|
    exec_invariant_along (fun _ _ _ h ha hst => alive_step h hst ha) alive_started hacts hrun

/-- The server leaves its loop, and nobody has the lock. -/
theorem forwarder_returns_quit : ∃ s, exec step (init.spawn .main)
      (Act.toLoop 0 1 ++ [.prepare 2, .quit 0]) = some s ∧ s.lock = none ∧
    ∃ more s', (∀ a ∈ more, a ≠ .start) ∧ exec step s more = some s' ∧
      ∃ pid fd, s'.pc pid = .loop fd := by
  obtain ⟨s, hrun, htest⟩ := exists_of_exec_any
    (show (exec step (init.spawn .main) (Act.toLoop 0 1 ++ [.prepare 2, .quit 0])).any
      (fun s => s.lock = none) = true by decide +kernel)
  exact ⟨s, hrun, of_decide_eq_true htest, forwarder_returns _ s (by decide +kernel) hrun⟩

end CPlayground.Monitor.Daemon
