import CPlayground.Monitor.Coordinator.Workers
import Mathlib.Logic.Function.Basic

namespace CPlayground.Monitor

open CPlayground.Trace

/-!
# The protocol between the coordinator and its workers

A worker reports that it is free by creating a file named after its pid; the file watcher of the
coordinator turns that into `OnIpcFileCreate`.  The coordinator hands a client over by sending the
descriptor through the worker's socket.  The worker removes its file when it takes the client, and
creates it again when the client has left.

The two threads of the coordinator are those of `Coordinator.step`; here they run beside the
workers, the sockets and the queue of inotify.

For each pid there is one token: it is the worker that has not started, a report, the report that
`OnIpcFileCreate` has in hand, the place among the idle workers, or a client.

* `Cluster.step` — one step of a thread of the coordinator, or of a worker.
* `Cluster.tokens_step` — a step makes no token; it loses none if its calls succeed and the list
  that a copy replaces is still the one that was copied.
* `Cluster.one_client` — in every interleaving, a worker has at most one client, on the way to it or
  served, and `state_` says whether it has one.
* `Cluster.worker_not_lost` — without overtaken copies and failures, a worker that nobody has
  reported and that has no client is idle, exactly once.
-/

/-- `Worker::State`, without the one that the destructor sets. -/
inductive Worker.State where
  | STARTUP
  | BUSY
  | IDLE
  deriving DecidableEq

/-- A worker with its socket and its file. -/
structure Worker where
  state : Worker.State := .STARTUP
  started : Bool := false   -- `startHeartBeat` was called
  file : Bool := false      -- the file `ipc_notifier` exists
  inFlight : Nat := 0       -- the clients in the socket
  serving : Nat := 0        -- the clients with an entry in the poll instance

namespace Worker

/-- `startHeartBeat`, apart from the file. -/
def start (w : Worker) : Worker := { w with started := true }

/-- A descriptor was sent to the worker. -/
def send (w : Worker) : Worker := { w with inFlight := w.inFlight + 1 }

/-- `OnRecvFd`. -/
def onRecvFd (w : Worker) : Worker :=
  { w with inFlight := w.inFlight - 1, serving := w.serving + 1, file := false, state := .BUSY }

/-- The poll instance removes the entry of a client. -/
def remove (w : Worker) : Worker := { w with serving := w.serving - 1 }

/-- The end of the `on_close` of a client. -/
def idle (w : Worker) : Worker := { w with state := .IDLE }

/-- The start, or the clients. -/
def tokens (w : Worker) : Nat := (!w.started).toNat + w.inFlight + w.serving

end Worker

/-- The coordinator and its workers, by pid. -/
structure Cluster where
  coordinator : Coordinator
  events : List Int32       -- the created files, as inotify has queued them
  workers : Int32 → Worker

namespace Cluster

open Coordinator (AcceptPc CreatePc Copies Move Unchanged move_of_step copies_move)

/-- A step of a thread of the coordinator, for `Accept` with the outcome of `SendFd`; or the start
    of a worker, its `OnRecvFd` and the `on_close` of its client. -/
inductive Act where
  | coordinator (a : Coordinator.Act) (sent : Bool)
  | start (pid : Int32)
  | recv (pid : Int32)
  | close (pid : Int32)

/-- No worker has started, and no report is on its way. -/
def init : Cluster := ⟨.init, [], fun _ => {}⟩

/-- One worker changes. -/
def update (s : Cluster) (pid : Int32) (w : Worker) : Cluster :=
  { s with workers := Function.update s.workers pid w }

/-- `Touch()`.  inotify reports the file if it did not exist. -/
def touch (s : Cluster) (pid : Int32) : Cluster :=
  if (s.workers pid).file then s
  else { s.update pid { s.workers pid with file := true } with events := s.events ++ [pid] }

/-- The worker to which `Accept` sends its client in this step. -/
def sentTo (c : Coordinator) : Coordinator.Act → Option Int32
  | .check true =>
    match c.accept with
    | .scanning (w :: _) _ => some w.pid
    | _ => none
  | _ => none

/-- `OnIpcFileCreate` is called with the first event. -/
def popped (events : List Int32) : Coordinator.Act → Option (List Int32)
  | .create pid =>
    match events with
    | e :: rest => if e = pid then some rest else none
    | []        => none
  | _ => some events

/-- One step.  A step of the coordinator takes the report that it is about from the queue of
    inotify, and the client that it sends goes to the worker's socket. -/
def step (s : Cluster) : Act → Option Cluster
  | .coordinator a sent =>
    (s.coordinator.step a).bind fun c =>
    (popped s.events a).map fun events =>
    let s' := { s with coordinator := c, events := events }
    match sentTo s.coordinator a with
    | some pid =>
      if sent then s'.update pid (s.workers pid).send else s'
    | none => s'
  | .start pid =>
    if (s.workers pid).started then none
    else some ((s.update pid (s.workers pid).start).touch pid)
  | .recv pid =>
    if (s.workers pid).inFlight = 0 then none
    else some (s.update pid (s.workers pid).onRecvFd)
  | .close pid =>
    if (s.workers pid).serving = 0 then none
    else
      let s := (s.update pid (s.workers pid).remove).touch pid
      some (s.update pid (s.workers pid).idle)

/-! ### Tokens -/

/-- The report that `OnIpcFileCreate` has in hand. -/
def created (p : Int32) : CreatePc → Nat
  | .idle => 0
  | .searching pid _ | .connecting pid => if pid = p then 1 else 0
  | .returning w _ _ | .adding w       => if w.pid = p then 1 else 0

/-- `Accept` has sent a client to a worker that is still among the idle ones. -/
def sent (p : Int32) : AcceptPc → Nat
  | .moving w _ _       => if w.pid = p then 1 else 0
  | .idle | .scanning .. => 0

/-- The tokens of a worker that the coordinator has. -/
def held (c : Coordinator) (p : Int32) : Nat :=
  created p c.create + (c.idle_workers.map WorkerMeta.pid).count p

/-- The tokens of a pid, wherever they are. -/
def tokens (s : Cluster) (p : Int32) : Nat :=
  s.events.count p + held s.coordinator p + (s.workers p).tokens

variable {s s' : Cluster} {c c' : Coordinator} {p pid : Int32} {w : Worker}

/-- A worker that changes brings its own tokens, and no others. -/
theorem tokens_update (s : Cluster) (p pid : Int32) (w : Worker) :
    tokens (s.update pid w) p + (if p = pid then (s.workers pid).tokens else 0)
      = tokens s p + (if p = pid then w.tokens else 0) := by
  by_cases h : p = pid
  · subst h
    simp only [tokens, update, Function.update_self, if_true]
    omega
  · simp only [tokens, update, Function.update_of_ne h, if_neg h]

/-- A report is a new token, unless the file is there already. -/
theorem tokens_touch (s : Cluster) (p pid : Int32) :
    tokens (s.touch pid) p
      = tokens s p + (if p = pid ∧ (s.workers pid).file = false then 1 else 0) := by
  unfold touch
  by_cases hfile : (s.workers pid).file
  · simp [hfile]
  · rw [if_neg hfile]
    have hupdate := tokens_update s p pid { s.workers pid with file := true }
    simp only [Bool.not_eq_true] at hfile
    simp only [tokens, update, List.count_append, List.count_singleton, hfile, and_true, beq_iff_eq,
      Worker.tokens, eq_comm (a := pid)] at hupdate ⊢
    omega

/-- The worker gives up a token of its own and reports; the token is lost if the file is there
    already, as then there is no event. -/
theorem tokens_report (s : Cluster) (p pid : Int32) (w : Worker)
    (hfile : w.file = (s.workers pid).file) (htokens : w.tokens + 1 = (s.workers pid).tokens) :
    tokens ((s.update pid w).touch pid) p
      + (if p = pid ∧ (s.workers pid).file = true then 1 else 0) = tokens s p := by
  have hupdate := tokens_update s p pid w
  have htouch := tokens_touch (s.update pid w) p pid
  have hw : (s.update pid w).workers pid = w := Function.update_self ..
  rw [hw, hfile] at htouch
  rw [htouch]
  by_cases heq : p = pid
  · rw [if_pos heq, if_pos heq] at hupdate
    cases (s.workers pid).file with
    | false =>
      simp only [heq, and_self, if_true, Bool.false_eq_true, and_false, if_false] at *
      omega
    | true =>
      simp only [heq, and_self, if_true, Bool.true_eq_false, and_false, if_false] at *
      omega
  · simpa only [heq, false_and, if_false, Nat.add_zero] using hupdate

/-- The list that `Accept` has copied. -/
def copiedBy : AcceptPc → Option (List WorkerMeta)
  | .idle => none
  | .scanning _ copied | .moving _ _ copied => some copied

/-- The report that a step of the coordinator takes from the queue. -/
def taken (p : Int32) : Coordinator.Act → Nat
  | .create pid => if pid = p then 1 else 0
  | _           => 0

/-- The worker that a step looks at is alive, and lets the coordinator connect. -/
def succeeds : Coordinator.Act → Bool
  | .check valid  => valid
  | .connect _ ok => ok
  | _             => true

/-- The step succeeds, and the list that a copy replaces is the one that was copied: under these
    conditions the coordinator loses no worker. -/
def Faithful (c : Coordinator) (a : Coordinator.Act) : Prop := Unchanged c a ∧ succeeds a = true

instance (c : Coordinator) (a : Coordinator.Act) : Decidable (Faithful c a) :=
  inferInstanceAs (Decidable (_ ∧ _))

/-- A worker that was found by its pid has this pid. -/
theorem created_search (p : Int32) (hst : c.step .search = some c') :
    created p c'.create = created p c.create := by
  rw [Coordinator.step] at hst
  split at hst
  · rename_i pid copied hpc
    split at hst
    · rename_i w hfind
      cases hst
      have htest := List.find?_some hfind
      have hpid : w.pid = pid := of_decide_eq_true htest
      rw [hpc, created, created, hpid]
    · cases hst
      rw [hpc, created, created]
  · cases hst

/-- What a step of the coordinator does to its tokens.  Some may get lost: the idle workers that
    were added since `Accept` has copied the list, those it has found dead, and a worker that does
    not let the coordinator connect. -/
theorem held_step {a : Coordinator.Act} (hcopies : Copies c)
    (hcopied : ∀ l ∈ copiedBy c.accept, l <+: c.idle_workers) (hst : c.step a = some c')
    (p : Int32) :
    ∃ lost, held c' p + sent p c.accept + ((sentTo c a).elim 0 fun pid => if pid = p then 1 else 0)
        + lost = held c p + sent p c'.accept + taken p a ∧
      (Faithful c a → c.dead = [] → lost = 0) := by
  have hsearch := fun (h : a = .search) => created_search p (h ▸ hst)
  cases move_of_step hst with
  | copiedIdle hpc => exact ⟨0, by simp [held, sent, sentTo, taken, hpc], fun _ _ => rfl⟩
  | found w rest copied hpc =>
    exact ⟨0, by simp [held, sent, sentTo, taken, hpc], fun _ _ => rfl⟩
  | foundDead w rest copied hpc =>
    exact ⟨0, by simp [held, sent, sentTo, taken, hpc], fun _ _ => rfl⟩
  | exhausted copied hpc => exact ⟨0, by simp [held, sent, sentTo, taken, hpc], fun _ _ => rfl⟩
  -- the copy replaces the list: whoever was passed over, or was added in between, is lost
  | moved w rest copied hpc =>
    obtain ⟨passed, hsplit, hpassed⟩ := hcopies.moving w rest copied hpc
    obtain ⟨added, hidle⟩ := hcopied copied (by rw [hpc]; rfl)
    refine ⟨(passed.map WorkerMeta.pid).count p + (added.map WorkerMeta.pid).count p, ?_, ?_⟩
    · simp only [held, sent, sentTo, taken, hpc, ← hidle, hsplit, List.map_append, List.map_cons,
        List.count_append, List.count_cons, beq_iff_eq, Option.elim_none]
      omega
    · rintro ⟨hunchanged, -⟩ hdead
      -- nobody was, if nobody is dead and the list is still the one that was copied
      have hempty : passed = [] := List.eq_nil_iff_forall_not_mem.mpr fun x hx => by
        simpa [hdead] using hpassed x hx
      have hsame : c.idle_workers = copied := by
        rw [Unchanged, hpc] at hunchanged
        exact hunchanged
      have hnone : added = [] := by simpa [hsame] using hidle
      rw [hempty, hnone]
      rfl
  | copiedBusy pid hpc =>
    refine ⟨0, ?_, fun _ _ => rfl⟩
    simp only [held, created, sentTo, taken, hpc, Option.elim_none]
    omega
  | reported pid w rest copied hpc hperm =>
    have hcreated := hsearch rfl
    refine ⟨0, ?_, fun _ _ => rfl⟩
    simp only [held, hcreated, sentTo, taken, Option.elim_none]
  | unknown pid copied hpc =>
    have hcreated := hsearch rfl
    refine ⟨0, ?_, fun _ _ => rfl⟩
    simp only [held, hcreated, sentTo, taken, Option.elim_none]
  | returned w rest copied hpc =>
    refine ⟨0, ?_, fun _ _ => rfl⟩
    simp only [held, created, sentTo, taken, hpc, List.map_append, List.map_cons, List.map_nil,
      List.count_append, List.count_singleton, beq_iff_eq, Option.elim_none]
    omega
  | connected pid handler hpc hnew =>
    refine ⟨0, ?_, fun _ _ => rfl⟩
    simp only [held, created, sentTo, taken, hpc, Option.elim_none]
  -- a connect that fails loses the report
  | refused pid handler hpc =>
    refine ⟨if pid = p then 1 else 0, ?_, fun hok => nomatch hok.2⟩
    simp only [held, created, sentTo, taken, hpc, Option.elim_none]
    omega
  | added w hpc =>
    refine ⟨0, ?_, fun _ _ => rfl⟩
    simp only [held, created, sentTo, taken, hpc, List.map_append, List.map_cons, List.map_nil,
      List.count_append, List.count_singleton, beq_iff_eq, Option.elim_none]
    omega

/-- Only `Accept` takes workers from the list of the idle ones; the other thread adds some behind
    those that were copied. -/
theorem copied_move {a : Coordinator.Act}
    (h : ∀ l ∈ copiedBy c.accept, l <+: c.idle_workers) (hm : Move c a c') :
    ∀ l ∈ copiedBy c'.accept, l <+: c'.idle_workers := by
  cases hm with
  | copiedIdle hpc =>
    rintro l ⟨⟩
    exact List.prefix_rfl
  | found w rest copied hpc =>
    rintro l ⟨⟩
    exact h copied (by rw [hpc]; rfl)
  | foundDead w rest copied hpc =>
    rintro l ⟨⟩
    exact h copied (by rw [hpc]; rfl)
  | exhausted copied hpc => exact nofun
  | moved w rest copied hpc => exact nofun
  | returned w rest copied hpc => exact fun l hl => (h l hl).trans (List.prefix_append ..)
  | added w hpc => exact fun l hl => (h l hl).trans (List.prefix_append ..)
  | copiedBusy pid hpc => exact h
  | reported pid w rest copied hpc hperm => exact h
  | unknown pid copied hpc => exact h
  | connected pid handler hpc hnew => exact h
  | refused pid handler hpc => exact h

/-- Nobody is found dead where every call succeeds. -/
theorem dead_move {a : Coordinator.Act} (ha : succeeds a = true) (hm : Move c a c') :
    c'.dead = c.dead := by
  cases hm with
  | foundDead => cases ha
  | _ => rfl

/-- The report that the file watcher takes leaves the queue, and becomes the one that
    `OnIpcFileCreate` is about. -/
theorem count_popped {a : Coordinator.Act} {events rest : List Int32}
    (h : popped events a = some rest) (p : Int32) :
    events.count p = rest.count p + taken p a := by
  unfold popped at h
  split at h
  · split at h
    · rw [Option.ite_none_right_eq_some] at h
      obtain ⟨rfl, h⟩ := h
      cases h
      simp only [List.count_cons, beq_iff_eq, taken]
    · cases h
  · rename_i hne
    cases h
    cases a with
    | create pid => exact absurd rfl (hne pid)
    | _ => rfl

/-! ### The invariant -/

/-- No call of the step fails, and no copy is overtaken. -/
def Act.Faithful (s : Cluster) : Act → Prop
  | .coordinator a sent => Cluster.Faithful s.coordinator a ∧ sent = true
  | _                   => True

/-- The same for a step of the cluster. -/
instance (s : Cluster) : DecidablePred (Act.Faithful s) := fun a =>
  match a with
  | .coordinator .. => inferInstanceAs (Decidable (_ ∧ _))
  | .start _ | .recv _ | .close _ => inferInstanceAs (Decidable True)

/-- A token for each worker; while `Accept` has sent a client, there is also the place that it is
    about to take from the worker. -/
structure Inv (s : Cluster) : Prop where
  copies : Copies s.coordinator
  copied : ∀ l ∈ copiedBy s.coordinator.accept, l <+: s.coordinator.idle_workers
  budget : ∀ p, tokens s p ≤ 1 + sent p s.coordinator.accept
  busy : ∀ p, (s.workers p).state = .BUSY ↔ 0 < (s.workers p).serving

/-- The token is there.  A file is there only as long as it can be a report. -/
structure Kept (s : Cluster) : Prop where
  dead : s.coordinator.dead = []
  file : ∀ p, (s.workers p).file = true → (s.workers p).started = true ∧ (s.workers p).serving = 0
  budget : ∀ p, tokens s p = 1 + sent p s.coordinator.accept

/-- One token for each pid: its worker has not started. -/
theorem inv_init : Inv init :=
  ⟨Coordinator.copies_init, nofun, fun _ => Nat.le_refl _, fun _ => ⟨nofun, nofun⟩⟩

/-- Nobody is lost. -/
theorem kept_init : Kept init := ⟨rfl, nofun, fun _ => rfl⟩

/-- The place that `Accept` is about to take is there. -/
theorem sent_le_count (h : Inv s) (p : Int32) :
    sent p s.coordinator.accept ≤ (s.coordinator.idle_workers.map WorkerMeta.pid).count p := by
  cases hpc : s.coordinator.accept with
  | idle => exact Nat.zero_le _
  | scanning rest copied => exact Nat.zero_le _
  | moving w rest copied =>
    obtain ⟨passed, hsplit, -⟩ := h.copies.moving w rest copied hpc
    obtain ⟨added, hidle⟩ := h.copied copied (by rw [hpc]; rfl)
    simp only [sent, ← hidle, hsplit, List.map_append, List.map_cons, List.count_append,
      List.count_cons, beq_iff_eq]
    omega

/-- A worker has at most one token at any time. -/
theorem worker_tokens_le_one (h : Inv s) (p : Int32) : (s.workers p).tokens ≤ 1 := by
  have hbudget := h.budget p
  have hsent := sent_le_count h p
  simp only [tokens, held] at hbudget
  omega

/-! ### The steps -/

/-- The coordinator does not see what a worker does by itself. -/
@[simp] theorem update_coordinator : (s.update pid w).coordinator = s.coordinator := rfl

/-- The worker itself does, and the others do not. -/
@[simp] theorem update_workers :
    (s.update pid w).workers p = if p = pid then w else s.workers p :=
  Function.update_apply ..

/-- Creating a file does not touch the coordinator. -/
@[simp] theorem touch_coordinator : (s.touch pid).coordinator = s.coordinator := by
  unfold touch
  split <;> rfl

/-- The file is there afterwards, and nothing else about the workers changes. -/
@[simp] theorem touch_workers :
    (s.touch pid).workers p =
      if p = pid then { s.workers p with file := true } else s.workers p := by
  unfold touch
  split
  · rename_i hfile
    split
    · rename_i heq
      rw [heq, ← hfile]
    · rfl
  · simp only [update_workers]
    split
    · rename_i heq
      rw [heq]
    · rfl

/-- A step of the coordinator in the cluster: it takes the report that it is about, and sends the
    client that it has. -/
theorem coordinator_step {a : Coordinator.Act} {ok : Bool}
    (hst : step s (.coordinator a ok) = some s') :
    s.coordinator.step a = some s'.coordinator ∧ popped s.events a = some s'.events ∧
      ∀ p, s'.workers p = if sentTo s.coordinator a = some p ∧ ok = true
        then (s.workers p).send else s.workers p := by
  simp only [step, Option.bind_eq_some_iff, Option.map_eq_some_iff] at hst
  obtain ⟨c, hc, events, hevents, rfl⟩ := hst
  cases hsent : sentTo s.coordinator a with
  | none =>
    refine ⟨hc, hevents, fun p => ?_⟩
    rw [if_neg (by simp)]
  | some pid =>
    cases ok with
    | false => exact ⟨hc, hevents, fun p => (if_neg (by simp)).symm⟩
    | true =>
      refine ⟨hc, hevents, fun p => ?_⟩
      simp only [if_true, update_workers, Option.some.injEq, and_true, eq_comm (a := pid)]
      split
      · rename_i heq
        rw [heq]
      · rfl

/-- What a step does to the tokens of `p`: `lost` of them go, and none if the step is faithful.  The
    place among the idle workers that `Accept` has sent a client for is counted until it is
    written back. -/
def Balanced (s s' : Cluster) (a : Act) (p : Int32) : Prop :=
  ∃ lost, tokens s' p + sent p s.coordinator.accept + lost
      = tokens s p + sent p s'.coordinator.accept ∧
    (a.Faithful s → Kept s → lost = 0)

/-- A step of the coordinator: the token goes through its lists, and with the client to the
    worker. -/
theorem balanced_coordinator {a : Coordinator.Act} {ok : Bool} (h : Inv s)
    (hst : step s (.coordinator a ok) = some s') (p : Int32) :
    Balanced s s' (.coordinator a ok) p := by
  obtain ⟨hc, hevents, hworkers⟩ := coordinator_step hst
  obtain ⟨lost, hheld, hlost⟩ := held_step h.copies h.copied hc p
  have hcount := count_popped hevents p
  by_cases hsent : sentTo s.coordinator a = some p
  · -- the client is on its way to the worker, unless `SendFd` has failed
    rw [hsent, Option.elim_some, if_pos rfl] at hheld
    refine ⟨lost + (!ok).toNat, ?_, ?_⟩
    · have htokens : (s'.workers p).tokens + (!ok).toNat = (s.workers p).tokens + 1 := by
        rw [hworkers p, hsent]
        cases ok with
        | false => simp
        | true =>
          simp only [and_self, if_true, Worker.tokens, Worker.send, Bool.not_true,
            Bool.toNat_false]
          omega
      simp only [tokens]
      omega
    · rintro ⟨hok, rfl⟩ hkept
      rw [hlost hok hkept.dead]
      rfl
  · have hzero : ((sentTo s.coordinator a).elim 0 fun pid => if pid = p then 1 else 0) = 0 := by
      cases hto : sentTo s.coordinator a with
      | none => rfl
      | some pid => exact if_neg fun heq => hsent (hto.trans (congrArg some heq))
    have hsame : s'.workers p = s.workers p := by
      rw [hworkers p, if_neg fun hand => hsent hand.1]
    refine ⟨lost, ?_, fun hok hkept => hlost hok.1 hkept.dead⟩
    simp only [tokens, hsame]
    omega

/-- A worker starts: its token becomes a report, unless its file is there already. -/
theorem balanced_start (hst : step s (.start pid) = some s') (p : Int32) :
    Balanced s s' (.start pid) p := by
  simp only [step, Option.ite_none_left_eq_some, Bool.not_eq_true, Option.some.injEq] at hst
  obtain ⟨hstarted, rfl⟩ := hst
  have htokens : (s.workers pid).start.tokens + 1 = (s.workers pid).tokens := by
    simp only [Worker.tokens, Worker.start, hstarted, Bool.not_false, Bool.not_true,
      Bool.toNat_true, Bool.toNat_false]
    omega
  have hreport := tokens_report s p pid (s.workers pid).start rfl htokens
  refine ⟨if p = pid ∧ (s.workers pid).file = true then 1 else 0, ?_, fun _ hkept => if_neg ?_⟩
  · rw [touch_coordinator, update_coordinator]
    omega
  · rintro ⟨-, hfile⟩
    rw [(hkept.file pid hfile).1] at hstarted
    cases hstarted

/-- A worker takes a client from its socket. -/
theorem balanced_recv (hst : step s (.recv pid) = some s') (p : Int32) :
    Balanced s s' (.recv pid) p := by
  simp only [step, Option.ite_none_left_eq_some, Option.some.injEq] at hst
  obtain ⟨hflight, rfl⟩ := hst
  have htokens : (s.workers pid).onRecvFd.tokens = (s.workers pid).tokens := by
    simp only [Worker.tokens, Worker.onRecvFd]
    omega
  have hupdate := tokens_update s p pid (s.workers pid).onRecvFd
  rw [htokens] at hupdate
  refine ⟨0, ?_, fun _ _ => rfl⟩
  rw [Nat.add_right_cancel hupdate]
  rfl

/-- A worker has served its client, and reports: the token goes from the worker to the queue of
    inotify. -/
theorem balanced_close (hst : step s (.close pid) = some s') (p : Int32) :
    Balanced s s' (.close pid) p := by
  simp only [step, Option.ite_none_left_eq_some, Option.some.injEq] at hst
  obtain ⟨hserving, rfl⟩ := hst
  have htokens : (s.workers pid).remove.tokens + 1 = (s.workers pid).tokens := by
    simp only [Worker.tokens, Worker.remove]
    omega
  have hreport := tokens_report s p pid (s.workers pid).remove rfl htokens
  -- the state is not a token
  have hidle := Nat.add_right_cancel
    (tokens_update ((s.update pid (s.workers pid).remove).touch pid) p pid (Worker.idle _))
  refine ⟨if p = pid ∧ (s.workers pid).file = true then 1 else 0, ?_, fun _ hkept => if_neg ?_⟩
  · rw [hidle, update_coordinator, touch_coordinator, update_coordinator]
    omega
  · rintro ⟨-, hfile⟩
    exact hserving (hkept.file pid hfile).2

/-- **Tokens.**  A step makes no token, and a faithful one keeps them all. -/
theorem tokens_step {a : Act} (h : Inv s) (hst : step s a = some s') (p : Int32) :
    Balanced s s' a p := by
  cases a with
  | coordinator a ok => exact balanced_coordinator h hst p
  | start pid => exact balanced_start hst p
  | recv pid => exact balanced_recv hst p
  | close pid => exact balanced_close hst p

/-- **A step makes no token**, so that none can be in two places; this bounds what a worker can have
    at the same time. -/
theorem inv_step {a : Act} (h : Inv s) (hst : step s a = some s') : Inv s' := by
  have hbudget : ∀ p, tokens s' p ≤ 1 + sent p s'.coordinator.accept := by
    intro p
    obtain ⟨lost, htokens, -⟩ := tokens_step h hst p
    have hle := h.budget p
    omega
  cases a with
  | coordinator a ok =>
    obtain ⟨hc, -, hworkers⟩ := coordinator_step hst
    have hmove := move_of_step hc
    refine ⟨copies_move h.copies hmove, copied_move h.copied hmove, hbudget, fun p => ?_⟩
    rw [hworkers p]
    split
    · exact h.busy p
    · exact h.busy p
  | start pid =>
    simp only [step, Option.ite_none_left_eq_some, Option.some.injEq] at hst
    obtain ⟨-, rfl⟩ := hst
    refine ⟨?_, ?_, hbudget, fun p => ?_⟩
    · simpa using h.copies
    · simpa using h.copied
    · simp only [touch_workers, update_workers]
      split
      · rename_i heq
        subst heq
        exact h.busy p
      · exact h.busy p
  | recv pid =>
    simp only [step, Option.ite_none_left_eq_some, Option.some.injEq] at hst
    obtain ⟨-, rfl⟩ := hst
    refine ⟨h.copies, h.copied, hbudget, fun p => ?_⟩
    rw [update_workers]
    split
    · exact ⟨fun _ => Nat.succ_pos _, fun _ => rfl⟩
    · exact h.busy p
  | close pid =>
    simp only [step, Option.ite_none_left_eq_some, Option.some.injEq] at hst
    obtain ⟨-, rfl⟩ := hst
    refine ⟨?_, ?_, hbudget, fun p => ?_⟩
    · simpa using h.copies
    · simpa using h.copied
    · simp only [update_workers, touch_workers]
      split
      · -- the client was the only one
        have hone := worker_tokens_le_one h pid
        simp only [Worker.tokens] at hone
        refine ⟨nofun, fun hserving => ?_⟩
        simp only [if_true, Worker.idle, Worker.remove] at hserving
        omega
      · exact h.busy p

/-- **A faithful step loses no token**: what leaves one place comes to the next one in the same
    step. -/
theorem kept_step {a : Act} (h : Inv s) (hkept : Kept s) (hok : a.Faithful s)
    (hst : step s a = some s') : Kept s' := by
  have hbudget : ∀ p, tokens s' p = 1 + sent p s'.coordinator.accept := by
    intro p
    obtain ⟨lost, htokens, hlost⟩ := tokens_step h hst p
    have heq := hkept.budget p
    have hzero := hlost hok hkept
    omega
  cases a with
  | coordinator a ok =>
    obtain ⟨hc, -, hworkers⟩ := coordinator_step hst
    refine ⟨?_, fun p hfile => ?_, hbudget⟩
    · exact (dead_move hok.1.2 (move_of_step hc)).trans hkept.dead
    · rw [hworkers p] at hfile ⊢
      split at hfile
      · rw [if_pos ‹_›]
        exact hkept.file p hfile
      · rw [if_neg ‹_›]
        exact hkept.file p hfile
  | start pid =>
    simp only [step, Option.ite_none_left_eq_some, Bool.not_eq_true, Option.some.injEq] at hst
    obtain ⟨hstarted, rfl⟩ := hst
    refine ⟨?_, fun p hfile => ?_, hbudget⟩
    · simpa using hkept.dead
    · by_cases heq : p = pid
      · -- a worker that has not started has no client
        have hone := worker_tokens_le_one h pid
        simp only [Worker.tokens, hstarted, Bool.not_false, Bool.toNat_true] at hone
        simp only [touch_workers, update_workers, if_pos heq, Worker.start, true_and]
        omega
      · simp only [touch_workers, update_workers, if_neg heq] at hfile ⊢
        exact hkept.file p hfile
  | recv pid =>
    simp only [step, Option.ite_none_left_eq_some, Option.some.injEq] at hst
    obtain ⟨-, rfl⟩ := hst
    refine ⟨hkept.dead, fun p hfile => ?_, hbudget⟩
    rw [update_workers] at hfile ⊢
    split at hfile
    · cases hfile
    · rw [if_neg ‹_›]
      exact hkept.file p hfile
  | close pid =>
    simp only [step, Option.ite_none_left_eq_some, Option.some.injEq] at hst
    obtain ⟨hserving, rfl⟩ := hst
    refine ⟨?_, fun p hfile => ?_, hbudget⟩
    · simpa using hkept.dead
    · by_cases heq : p = pid
      · have hone := worker_tokens_le_one h pid
        simp only [Worker.tokens] at hone
        simp only [touch_workers, update_workers, if_pos heq, if_true, Worker.idle, Worker.remove]
        refine ⟨?_, by omega⟩
        cases hstarted : (s.workers pid).started with
        | true => rfl
        | false =>
          simp only [hstarted, Bool.not_false, Bool.toNat_true] at hone
          omega
      · simp only [touch_workers, update_workers, if_neg heq] at hfile ⊢
        exact hkept.file p hfile

/-! ### The runs -/

/-- **At most one client.**  In every interleaving of the two threads of the coordinator and the
    workers, whatever fails, a worker has at most one client, sent to it or served, and its state is
    `BUSY` exactly while it serves one. -/
theorem one_client (acts : List Act) (s : Cluster) (hrun : exec step init acts = some s)
    (pid : Int32) :
    (s.workers pid).inFlight + (s.workers pid).serving ≤ 1 ∧
      ((s.workers pid).state = .BUSY ↔ 0 < (s.workers pid).serving) := by
  have hinv : Inv s := exec_invariant (fun _ _ _ h hst => inv_step h hst) inv_init hrun
  have hone := worker_tokens_le_one hinv pid
  refine ⟨?_, hinv.busy pid⟩
  simp only [Worker.tokens] at hone
  omega

/-- The worker with pid 7 starts, serves a client and reports again. -/
def served : List Act :=
  [.start 7, .coordinator (.create 7) true, .coordinator .search true,
   .coordinator (.connect 3 true) true, .coordinator .add true, .coordinator .accept true,
   .coordinator (.check true) true, .coordinator .move true, .recv 7, .close 7,
   .coordinator (.create 7) true, .coordinator .search true, .coordinator .giveBack true]

/-- The worker has the client that was handed over to it, and no other one. -/
theorem one_client_served : ∃ s, exec step init (served.take 9) = some s ∧
    (s.workers 7).serving = 1 ∧ (s.workers 7).state = .BUSY := by
  obtain ⟨s, hrun, htest⟩ := exists_of_exec_any
    (show (exec step init (served.take 9)).any (fun s => (s.workers 7).serving = 1) = true by
      decide +kernel)
  have hserving : (s.workers 7).serving = 1 := of_decide_eq_true htest
  exact ⟨s, hrun, hserving,
    (one_client (served.take 9) s hrun 7).2.mpr (hserving ▸ Nat.zero_lt_one)⟩

/-- **No worker is lost.**  In every interleaving in which no call fails and the list that a copy
    replaces is still the one that was copied: when both threads of the coordinator are idle, a
    worker that has started, has no client and is not in the queue of inotify is exactly once
    among the idle workers. -/
theorem worker_not_lost (acts : List Act) (s : Cluster) (hrun : exec step init acts = some s)
    (hok : Along step (fun s a => a.Faithful s) init acts) (haccept : s.coordinator.accept = .idle)
    (hcreate : s.coordinator.create = .idle) (pid : Int32)
    (hstarted : (s.workers pid).started = true) (hreport : pid ∉ s.events)
    (hflight : (s.workers pid).inFlight = 0) (hserving : (s.workers pid).serving = 0) :
    (s.coordinator.idle_workers.map WorkerMeta.pid).count pid = 1 := by
  have hinv : Inv s ∧ Kept s :=
    exec_invariants_along (fun _ _ _ h hst => inv_step h hst)
      (fun _ _ _ h hkept hok hst => kept_step h hkept hok hst) inv_init kept_init hok hrun
  have hbudget := hinv.2.budget pid
  rw [tokens, held, haccept, hcreate, List.count_eq_zero_of_not_mem hreport] at hbudget
  simp only [created, sent, Worker.tokens, hstarted, hflight, hserving, Bool.not_true,
    Bool.toNat_false] at hbudget
  omega

/-- After its client has left, the worker is idle again, once. -/
theorem worker_not_lost_served : ∃ s, exec step init served = some s ∧
    (s.coordinator.idle_workers.map WorkerMeta.pid).count 7 = 1 := by
  obtain ⟨s, hrun, htest⟩ := exists_of_exec_any
    (show (exec step init served).any (fun s => s.coordinator.accept = .idle ∧
      s.coordinator.create = .idle ∧ (s.workers 7).started = true ∧ 7 ∉ s.events ∧
      (s.workers 7).inFlight = 0 ∧ (s.workers 7).serving = 0) = true by decide +kernel)
  obtain ⟨haccept, hcreate, hstarted, hreport, hflight, hserving⟩ := of_decide_eq_true htest
  exact ⟨s, hrun, worker_not_lost served s hrun (by decide +kernel) haccept hcreate 7 hstarted
    hreport hflight hserving⟩

end Cluster

end CPlayground.Monitor
