import CPlayground.Lib.Trace
import Mathlib.Data.List.Nodup

namespace CPlayground.Monitor

open CPlayground.Trace

/-!
# `Coordinator`: idle and busy workers

The loop thread runs `Accept` for every new connection, the file watcher's thread runs
`OnIpcFileCreate` for every worker that reports.  Both copy one of the two lists under the lock,
edit the copy without it, and put the copy back under the lock.

* `Coordinator` — the two lists and where each thread is; each locked block is one step.
* `workers_in_one_list` — in a run where the list that a copy replaces is still the one that was
  copied, every worker that was added and not found dead is in exactly one list, once.  A worker is
  an element of the lists, a pid with a socket.
* `pids_in_one_list` — the same for the pids, if no pid reports that is idle.
* `new_worker_lost` — without the condition, a worker that is added while `Accept` holds its copy is
  lost.

`*it` after `erase(it)` is the erased element.
-/

/-- `Coordinator::WorkerMeta`. -/
structure WorkerMeta where
  pid : Int32
  handler : Nat
  deriving DecidableEq

namespace Coordinator

/-- Where `Accept` is.  `copied` is the list that it copied, and `rest` what it has not looked
    at. -/
inductive AcceptPc where
  | idle
  /-- In the loop, with `rest` of the copy to go; what it has passed is erased. -/
  | scanning (rest copied : List WorkerMeta)
  /-- The connection was sent to `w`, which is erased from the copy. -/
  | moving (w : WorkerMeta) (rest copied : List WorkerMeta)
  deriving DecidableEq

/-- Where `OnIpcFileCreate` is.  `copied` is the list that it copied. -/
inductive CreatePc where
  | idle
  | searching (pid : Int32) (copied : List WorkerMeta)
  /-- The worker `w` was found and erased from the copy. -/
  | returning (w : WorkerMeta) (rest copied : List WorkerMeta)
  | connecting (pid : Int32)
  | adding (w : WorkerMeta)
  deriving DecidableEq

end Coordinator

open Coordinator in
/-- The workers of a `Coordinator`. -/
structure Coordinator where
  idle_workers : List WorkerMeta
  busy_workers : List WorkerMeta
  accept : AcceptPc
  create : CreatePc
  /-- The workers added so far. -/
  added : List WorkerMeta
  /-- The workers `Accept` has found dead. -/
  dead : List WorkerMeta

namespace Coordinator

/-- There are no workers, and both threads are idle. -/
def init : Coordinator := ⟨[], [], .idle, .idle, [], []⟩

/-- The steps of the two threads: each is one locked block, or one look at a worker of the copy. -/
inductive Act where
  /-- `Accept` copies the idle workers. -/
  | accept
  /-- `Accept` looks at the next worker of its copy: process and descriptor are valid, or not. -/
  | check (valid : Bool)
  /-- `Accept` has found no worker. -/
  | noWorker
  /-- `Accept` puts its copy back and the worker with the busy ones. -/
  | move
  /-- `OnIpcFileCreate` for this pid copies the busy workers. -/
  | create (pid : Int32)
  | search
  /-- `OnIpcFileCreate` puts its copy back and the worker with the idle ones. -/
  | giveBack
  /-- `OnIpcFileCreate` connects to a new worker; a socket stays open, so its number is new. -/
  | connect (handler : Nat) (ok : Bool)
  | add
  deriving DecidableEq

/-- One step.  The lists only change when a thread puts its copy back or adds a worker; what the
    thread does with its copy in between is in its program counter. -/
def step (s : Coordinator) : Act → Option Coordinator
  | .accept =>
    match s.accept with
    | .idle => some { s with accept := .scanning s.idle_workers s.idle_workers }
    | _ => none
  | .check valid =>
    match s.accept with
    | .scanning (w :: rest) copied =>
      if valid then some { s with accept := .moving w rest copied }
      else some { s with accept := .scanning rest copied, dead := w :: s.dead }
    | _ => none
  | .noWorker =>
    match s.accept with
    | .scanning [] _ => some { s with accept := .idle }
    | _ => none
  | .move =>
    match s.accept with
    | .moving w rest _ =>
      some { s with busy_workers := s.busy_workers ++ [w], idle_workers := rest, accept := .idle }
    | _ => none
  | .create pid =>
    match s.create with
    | .idle => if pid = 0 then none else some { s with create := .searching pid s.busy_workers }
    | _ => none
  | .search =>
    match s.create with
    | .searching pid copied =>
      match copied.find? fun w => w.pid = pid with
      | some w => some { s with create := .returning w (copied.eraseP fun w => w.pid = pid) copied }
      | none   => some { s with create := .connecting pid }
    | _ => none
  | .giveBack =>
    match s.create with
    | .returning w rest _ =>
      some { s with idle_workers := s.idle_workers ++ [w], busy_workers := rest, create := .idle }
    | _ => none
  | .connect handler ok =>
    match s.create with
    | .connecting pid =>
      if handler ∈ s.added.map (·.handler) then none
      else if ok then some { s with create := .adding ⟨pid, handler⟩ }
      else some { s with create := .idle }
    | _ => none
  | .add =>
    match s.create with
    | .adding w => some { s with idle_workers := s.idle_workers ++ [w], added := w :: s.added,
                                 create := .idle }
    | _ => none

/-! ### What a step can do -/

variable {s s' : Coordinator}

/-- The outcomes of a step, one constructor for each branch of the two functions. -/
inductive Move (s : Coordinator) : Act → Coordinator → Prop where
  | copiedIdle (hpc : s.accept = .idle) :
      Move s .accept { s with accept := .scanning s.idle_workers s.idle_workers }
  | found (w : WorkerMeta) (rest copied : List WorkerMeta)
      (hpc : s.accept = .scanning (w :: rest) copied) :
      Move s (.check true) { s with accept := .moving w rest copied }
  | foundDead (w : WorkerMeta) (rest copied : List WorkerMeta)
      (hpc : s.accept = .scanning (w :: rest) copied) :
      Move s (.check false) { s with accept := .scanning rest copied, dead := w :: s.dead }
  | exhausted (copied : List WorkerMeta) (hpc : s.accept = .scanning [] copied) :
      Move s .noWorker { s with accept := .idle }
  | moved (w : WorkerMeta) (rest copied : List WorkerMeta)
      (hpc : s.accept = .moving w rest copied) :
      Move s .move
        { s with busy_workers := s.busy_workers ++ [w], idle_workers := rest, accept := .idle }
  | copiedBusy (pid : Int32) (hpc : s.create = .idle) :
      Move s (.create pid) { s with create := .searching pid s.busy_workers }
  | reported (pid : Int32) (w : WorkerMeta) (rest copied : List WorkerMeta)
      (hpc : s.create = .searching pid copied) (hperm : copied.Perm (w :: rest)) :
      Move s .search { s with create := .returning w rest copied }
  | unknown (pid : Int32) (copied : List WorkerMeta) (hpc : s.create = .searching pid copied)
      (hnone : pid ∉ copied.map (·.pid)) :
      Move s .search { s with create := .connecting pid }
  | returned (w : WorkerMeta) (rest copied : List WorkerMeta)
      (hpc : s.create = .returning w rest copied) :
      Move s .giveBack
        { s with idle_workers := s.idle_workers ++ [w], busy_workers := rest, create := .idle }
  | connected (pid : Int32) (handler : Nat) (hpc : s.create = .connecting pid)
      (hnew : handler ∉ s.added.map (·.handler)) :
      Move s (.connect handler true) { s with create := .adding ⟨pid, handler⟩ }
  | refused (pid : Int32) (handler : Nat) (hpc : s.create = .connecting pid) :
      Move s (.connect handler false) { s with create := .idle }
  | added (w : WorkerMeta) (hpc : s.create = .adding w) :
      Move s .add { s with idle_workers := s.idle_workers ++ [w], added := w :: s.added,
                           create := .idle }

/-- The search takes the worker out of the copy. -/
theorem perm_eraseP_of_find? {pid : Int32} {copied : List WorkerMeta} {w : WorkerMeta}
    (hfind : copied.find? (fun w => w.pid = pid) = some w) :
    copied.Perm (w :: copied.eraseP fun w => w.pid = pid) := by
  obtain ⟨hw, as, bs, rfl, has⟩ := List.find?_eq_some_iff_append.mp hfind
  rw [List.eraseP_append_right _ fun a ha => by simpa using has a ha,
    List.eraseP_cons_of_pos (by simpa using hw)]
  exact List.perm_middle

/-- A search that finds nothing: no worker of the copy has the pid. -/
theorem not_mem_of_find? {pid : Int32} {copied : List WorkerMeta}
    (hfind : copied.find? (fun w => w.pid = pid) = none) : pid ∉ copied.map (·.pid) := by
  rw [List.mem_map]
  rintro ⟨w, hw, rfl⟩
  simpa using List.find?_eq_none.mp hfind w hw

/-- Every enabled step is one of these, with the copy that it works on and where in the copy it
    is. -/
theorem move_of_step {a : Act} (hst : s.step a = some s') : Move s a s' := by
  cases a with
  | accept =>
    rw [step] at hst
    split at hst
    · cases hst
      exact .copiedIdle ‹_›
    · cases hst
  | check valid =>
    rw [step] at hst
    split at hst
    · cases valid with
      | true =>
        cases hst
        exact .found _ _ _ ‹_›
      | false =>
        cases hst
        exact .foundDead _ _ _ ‹_›
    · cases hst
  | noWorker =>
    rw [step] at hst
    split at hst
    · cases hst
      exact .exhausted _ ‹_›
    · cases hst
  | move =>
    rw [step] at hst
    split at hst
    · cases hst
      exact .moved _ _ _ ‹_›
    · cases hst
  | create pid =>
    rw [step] at hst
    split at hst
    · rw [Option.ite_none_left_eq_some] at hst
      cases hst.2
      exact .copiedBusy pid ‹_›
    · cases hst
  -- the search takes the worker with this pid out of the copy, or finds none
  | search =>
    rw [step] at hst
    split at hst
    · split at hst
      · cases hst
        exact .reported _ _ _ _ ‹_› (perm_eraseP_of_find? ‹_›)
      · cases hst
        exact .unknown _ _ ‹_› (not_mem_of_find? ‹_›)
    · cases hst
  | giveBack =>
    rw [step] at hst
    split at hst
    · cases hst
      exact .returned _ _ _ ‹_›
    · cases hst
  | connect handler ok =>
    rw [step] at hst
    split at hst
    · rw [Option.ite_none_left_eq_some] at hst
      obtain ⟨hnew, hst⟩ := hst
      cases ok with
      | true =>
        cases hst
        exact .connected _ _ ‹_› hnew
      | false =>
        cases hst
        exact .refused _ _ ‹_›
    · cases hst
  | add =>
    rw [step] at hst
    split at hst
    · cases hst
      exact .added _ ‹_›
    · cases hst

/-! ### Every worker is in one list -/

/-- The list that a copy is about to replace is still the one that was copied. -/
def Unchanged (s : Coordinator) : Act → Prop
  | .move =>
    match s.accept with
    | .moving _ _ copied => s.idle_workers = copied
    | _ => True
  | .giveBack =>
    match s.create with
    | .returning _ _ copied => s.busy_workers = copied
    | _ => True
  | _ => True

/-- The copies are what was copied, without the workers that were passed over as dead or taken out;
    and a worker that is about to be added is new. -/
structure Copies (s : Coordinator) : Prop where
  scanning : ∀ rest copied, s.accept = .scanning rest copied →
    ∃ passed, copied = passed ++ rest ∧ ∀ w ∈ passed, w ∈ s.dead
  moving : ∀ w rest copied, s.accept = .moving w rest copied →
    ∃ passed, copied = passed ++ w :: rest ∧ ∀ w ∈ passed, w ∈ s.dead
  returning : ∀ w rest copied, s.create = .returning w rest copied → copied.Perm (w :: rest)
  adding : ∀ w, s.create = .adding w → w ∉ s.added

/-- No thread has a copy. -/
theorem copies_init : Copies init := ⟨nofun, nofun, nofun, nofun⟩

/-- **A copy is an old version of its list**, less the workers that its thread has passed over or
    taken out. -/
theorem copies_move (h : Copies s) {a : Act} (hm : Move s a s') : Copies s' := by
  cases hm with
  | copiedIdle hpc =>
    refine ⟨?_, nofun, h.returning, h.adding⟩
    rintro rest copied ⟨⟩
    exact ⟨[], rfl, nofun⟩
  | found w rest copied hpc =>
    refine ⟨nofun, ?_, h.returning, h.adding⟩
    rintro w' rest' copied' ⟨⟩
    exact h.scanning _ _ hpc
  | foundDead w rest copied hpc =>
    refine ⟨?_, nofun, h.returning, h.adding⟩
    rintro rest' copied' ⟨⟩
    -- one worker more was passed over, and it is among the dead ones
    obtain ⟨passed, rfl, hpassed⟩ := h.scanning _ _ hpc
    refine ⟨passed ++ [w], by simp, fun x hx => ?_⟩
    rcases List.mem_append.mp hx with hx | hx
    · exact List.mem_cons_of_mem _ (hpassed x hx)
    · rw [List.mem_singleton.mp hx]
      exact List.mem_cons_self
  | exhausted copied hpc => exact ⟨nofun, nofun, h.returning, h.adding⟩
  | moved w rest copied hpc => exact ⟨nofun, nofun, h.returning, h.adding⟩
  | copiedBusy pid hpc => exact ⟨h.scanning, h.moving, nofun, nofun⟩
  | reported pid w rest copied hpc hperm =>
    refine ⟨h.scanning, h.moving, ?_, nofun⟩
    rintro w' rest' copied' ⟨⟩
    exact hperm
  | unknown pid copied hpc hnone => exact ⟨h.scanning, h.moving, nofun, nofun⟩
  | returned w rest copied hpc => exact ⟨h.scanning, h.moving, nofun, nofun⟩
  | connected pid handler hpc hnew =>
    refine ⟨h.scanning, h.moving, nofun, ?_⟩
    -- the socket has a new number, so the worker is not one that was added before
    rintro w ⟨⟩ hmem
    exact hnew (List.mem_map.mpr ⟨_, hmem, rfl⟩)
  | refused pid handler hpc => exact ⟨h.scanning, h.moving, nofun, nofun⟩
  | added w hpc => exact ⟨h.scanning, h.moving, nofun, nofun⟩

/-- Where the workers are: a worker that was not found dead is in the lists as often as it was
    added, and that is at most once. -/
structure Placed (s : Coordinator) : Prop where
  nodup : s.added.Nodup
  count : ∀ w, w ∉ s.dead → (s.idle_workers ++ s.busy_workers).count w = s.added.count w

/-- There are no workers. -/
theorem placed_init : Placed init := ⟨List.nodup_nil, fun _ _ => rfl⟩

/-- **A move keeps every worker in its place**, if the list that a copy replaces is the one that was
    copied. -/
theorem placed_move (hc : Copies s) (h : Placed s) {a : Act} (hok : Unchanged s a)
    (hm : Move s a s') : Placed s' := by
  cases hm with
  | foundDead w rest copied hpc =>
    exact ⟨h.nodup, fun x hx => h.count x fun hmem => hx (List.mem_cons_of_mem _ hmem)⟩
  | moved w rest copied hpc =>
    refine ⟨h.nodup, fun x hx => ?_⟩
    have hidle : s.idle_workers = copied := by
      rw [Unchanged, hpc] at hok
      exact hok
    -- what the copy lacks is the worker itself and the dead ones
    obtain ⟨passed, hcopied, hpassed⟩ := hc.moving w rest copied hpc
    have hzero : passed.count x = 0 := List.count_eq_zero.mpr fun hmem => hx (hpassed x hmem)
    have hcount := h.count x hx
    rw [hidle, hcopied] at hcount
    simp only [List.count_append, List.count_cons, List.count_nil] at hcount ⊢
    omega
  | returned w rest copied hpc =>
    refine ⟨h.nodup, fun x hx => ?_⟩
    have hbusy : s.busy_workers = copied := by
      rw [Unchanged, hpc] at hok
      exact hok
    have hcount := h.count x hx
    have hperm := (hc.returning w rest copied hpc).count_eq x
    rw [hbusy] at hcount
    simp only [List.count_append, List.count_cons, List.count_nil] at hcount hperm ⊢
    omega
  | added w hpc =>
    refine ⟨List.nodup_cons.mpr ⟨hc.adding w hpc, h.nodup⟩, fun x hx => ?_⟩
    have hcount := h.count x hx
    simp only [List.count_append, List.count_cons, List.count_nil] at hcount ⊢
    omega
  | copiedIdle hpc => exact ⟨h.nodup, h.count⟩
  | found w rest copied hpc => exact ⟨h.nodup, h.count⟩
  | exhausted copied hpc => exact ⟨h.nodup, h.count⟩
  | copiedBusy pid hpc => exact ⟨h.nodup, h.count⟩
  | reported pid w rest copied hpc hperm => exact ⟨h.nodup, h.count⟩
  | unknown pid copied hpc hnone => exact ⟨h.nodup, h.count⟩
  | connected pid handler hpc hnew => exact ⟨h.nodup, h.count⟩
  | refused pid handler hpc => exact ⟨h.nodup, h.count⟩

/-- The run lemma. -/
theorem placed_of_exec {acts : List Act} (hrun : exec step init acts = some s)
    (hcopies : Along step Unchanged init acts) : Copies s ∧ Placed s :=
  exec_invariants_along (fun _ _ _ hc hst => copies_move hc (move_of_step hst))
    (fun _ _ _ hc hp hok hst => placed_move hc hp hok (move_of_step hst))
    copies_init placed_init hcopies hrun

/-- **Worker lists.**  In every interleaving in which the list that a copy replaces is still the one
    that was copied, every worker that was added and not found dead is in exactly one of the two
    lists, exactly once.  A worker is what was added, a pid with its socket: a pid that reports
    twice while it is idle is added twice, and its two workers may come to be in both lists (see
    `pids_in_one_list`). -/
theorem workers_in_one_list (acts : List Act) (s : Coordinator)
    (hrun : exec step init acts = some s) (hcopies : Along step Unchanged init acts) :
    ∀ w ∈ s.added, w ∉ s.dead → (s.idle_workers ++ s.busy_workers).count w = 1 := by
  have hinv := placed_of_exec hrun hcopies
  intro w hw hdead
  rw [hinv.2.count w hdead, List.count_eq_one_of_mem hinv.2.nodup hw]

/-- The condition can be tested on a run. -/
instance decidableUnchanged (s : Coordinator) : (a : Act) → Decidable (Unchanged s a)
  | .move =>
    match hpc : s.accept with
    | .moving _ _ copied =>
      decidable_of_iff (s.idle_workers = copied) (by simp only [Unchanged, hpc])
    | .idle | .scanning .. => .isTrue (by simp only [Unchanged, hpc])
  | .giveBack =>
    match hpc : s.create with
    | .returning _ _ copied =>
      decidable_of_iff (s.busy_workers = copied) (by simp only [Unchanged, hpc])
    | .idle | .searching .. | .connecting _ | .adding _ => .isTrue (by simp only [Unchanged, hpc])
  | .accept | .check _ | .noWorker | .create _ | .search | .connect .. | .add => .isTrue trivial

/-- A worker with pid 7 is added, gets a connection and reports back. -/
def served : List Act :=
  [.create 7, .search, .connect 3 true, .add, .accept, .check true, .move, .create 7, .search,
   .giveBack]

/-- Every step of this run finds the list that it copied. -/
theorem workers_in_one_list_served : ∃ s, exec step init served = some s ∧ ⟨7, 3⟩ ∈ s.added ∧
    ⟨7, 3⟩ ∉ s.dead ∧ (s.idle_workers ++ s.busy_workers).count ⟨7, 3⟩ = 1 := by
  obtain ⟨s, hrun, htest⟩ := exists_of_exec_any
    (show (exec step init served).any (fun s => ⟨7, 3⟩ ∈ s.added ∧ ⟨7, 3⟩ ∉ s.dead) = true by
      decide)
  obtain ⟨hadded, hdead⟩ := of_decide_eq_true htest
  exact ⟨s, hrun, hadded, hdead,
    workers_in_one_list served s hrun (by decide) ⟨7, 3⟩ hadded hdead⟩

/-- A second worker is added while `Accept` holds its copy of the idle workers. -/
def overtaken : List Act :=
  [.create 7, .search, .connect 3 true, .add, .accept, .create 8, .search, .connect 4 true, .add,
   .check true, .move]

/-- The second worker is in neither list. -/
theorem new_worker_lost : ∃ s, exec step init overtaken = some s ∧ ⟨8, 4⟩ ∈ s.added ∧
    s.dead = [] ∧ (s.idle_workers ++ s.busy_workers).count ⟨8, 4⟩ = 0 := by
  obtain ⟨s, hrun, htest⟩ := exists_of_exec_any
    (show (exec step init overtaken).any (fun s => ⟨8, 4⟩ ∈ s.added ∧ s.dead = [] ∧
      (s.idle_workers ++ s.busy_workers).count ⟨8, 4⟩ = 0) = true by decide)
  exact ⟨s, hrun, of_decide_eq_true htest⟩

/-! ### Every pid is in one list -/

/-- The pids of a list. -/
def pids (workers : List WorkerMeta) : List Int32 := workers.map (·.pid)

/-- A pid reports that is not idle.  One that is on its way to the busy workers is idle until
    `Accept` puts its copy back. -/
def Reports (s : Coordinator) : Act → Prop
  | .create pid => pid ∉ pids s.idle_workers
  | _ => True

/-- No pid is there twice, and the one that `OnIpcFileCreate` is about to add is not there; while it
    is looking for it, it is not idle, and if it is busy it is in the copy. -/
structure PidsOnce (s : Coordinator) : Prop where
  nodup : (pids (s.idle_workers ++ s.busy_workers)).Nodup
  searching : ∀ pid copied, s.create = .searching pid copied →
    pid ∉ pids s.idle_workers ∧ (pid ∈ pids s.busy_workers → pid ∈ pids copied)
  connecting : ∀ pid, s.create = .connecting pid → pid ∉ pids (s.idle_workers ++ s.busy_workers)
  adding : ∀ w, s.create = .adding w → w.pid ∉ pids (s.idle_workers ++ s.busy_workers)

/-- There are no workers at first. -/
theorem pidsOnce_init : PidsOnce init := ⟨List.nodup_nil, nofun, nofun, nofun⟩

/-- The pids of two lists. -/
theorem mem_pids_append {pid : Int32} {l₁ l₂ : List WorkerMeta} :
    pid ∈ pids (l₁ ++ l₂) ↔ pid ∈ pids l₁ ∨ pid ∈ pids l₂ := by
  rw [pids, List.map_append, List.mem_append]
  rfl

/-- Lists whose workers, in some order, are among those of the lists before. -/
theorem PidsOnce.sublist (h : PidsOnce s) {workers l : List WorkerMeta} (hperm : workers.Perm l)
    (hsub : l.Sublist (s.idle_workers ++ s.busy_workers)) :
    (pids workers).Nodup ∧
      ∀ pid ∈ pids workers, pid ∈ pids (s.idle_workers ++ s.busy_workers) := by
  refine ⟨(hperm.map _).nodup_iff.mpr (h.nodup.sublist (hsub.map _)), fun pid hpid => ?_⟩
  exact (hsub.map _).subset ((hperm.map _).subset hpid)

/-- `Accept` takes an idle worker to the busy ones.  `OnIpcFileCreate` is not looking for its
    pid. -/
theorem PidsOnce.moved (hc : Copies s) (h : PidsOnce s) {w : WorkerMeta}
    {rest copied : List WorkerMeta} (hpc : s.accept = .moving w rest copied)
    (hidle : s.idle_workers = copied) :
    PidsOnce { s with busy_workers := s.busy_workers ++ [w], idle_workers := rest,
                      accept := .idle } := by
  obtain ⟨passed, hcopied, -⟩ := hc.moving w rest copied hpc
  -- the worker goes from the idle ones to the busy ones, and the pids are among those before
  have hperm : (rest ++ (s.busy_workers ++ [w])).Perm (w :: rest ++ s.busy_workers) := by
    rw [← List.append_assoc]
    exact List.perm_append_singleton w _
  have hsub : (w :: rest ++ s.busy_workers).Sublist (s.idle_workers ++ s.busy_workers) := by
    rw [hidle, hcopied, List.append_assoc]
    exact List.sublist_append_right passed _
  obtain ⟨hnodup, hsubset⟩ := h.sublist hperm hsub
  refine ⟨hnodup, fun pid busy hsearch => ?_, fun pid hconnect hpid => ?_, fun x hadd hpid => ?_⟩
  -- the pid that `OnIpcFileCreate` looks for was not idle, so it is not the one that has moved
  · obtain ⟨hnot, hbusy⟩ := h.searching pid busy hsearch
    have hin : pid ∉ pids (w :: rest) := fun hpid => by
      rw [hidle, hcopied] at hnot
      exact hnot (((List.sublist_append_right passed (w :: rest)).map _).subset hpid)
    refine ⟨fun hpid => hin (List.mem_cons_of_mem _ hpid), fun hpid => ?_⟩
    rcases mem_pids_append.mp hpid with hpid | hpid
    · exact hbusy hpid
    · obtain rfl := List.mem_singleton.mp hpid
      exact absurd List.mem_cons_self hin
  · exact h.connecting pid hconnect (hsubset pid hpid)
  · exact h.adding x hadd (hsubset x.pid hpid)

/-- `OnIpcFileCreate` takes a busy worker to the idle ones. -/
theorem PidsOnce.returned (hc : Copies s) (h : PidsOnce s) {w : WorkerMeta}
    {rest copied : List WorkerMeta} (hpc : s.create = .returning w rest copied)
    (hbusy : s.busy_workers = copied) :
    PidsOnce { s with idle_workers := s.idle_workers ++ [w], busy_workers := rest,
                      create := .idle } := by
  have hperm : (s.idle_workers ++ [w] ++ rest).Perm (s.idle_workers ++ s.busy_workers) := by
    rw [List.append_assoc, hbusy]
    exact (hc.returning w rest copied hpc).symm.append_left s.idle_workers
  exact ⟨(h.sublist hperm (List.Sublist.refl _)).1, nofun, nofun, nofun⟩

/-- `OnIpcFileCreate` adds a worker. -/
theorem PidsOnce.added (h : PidsOnce s) {w : WorkerMeta} (hpc : s.create = .adding w) :
    PidsOnce { s with idle_workers := s.idle_workers ++ [w], added := w :: s.added,
                      create := .idle } := by
  have hperm : (s.idle_workers ++ [w] ++ s.busy_workers).Perm
      (w :: (s.idle_workers ++ s.busy_workers)) := by
    rw [List.append_assoc]
    exact List.perm_middle
  refine ⟨(hperm.map _).nodup_iff.mpr ?_, nofun, nofun, nofun⟩
  exact List.nodup_cons.mpr ⟨h.adding w hpc, h.nodup⟩

/-- **A move keeps every pid in its place**, if a worker that reports is not idle, and if the lists
    are the ones that were copied. -/
theorem pidsOnce_move (hc : Copies s) (h : PidsOnce s) {a : Act} (hcopy : Unchanged s a)
    (hreport : Reports s a) (hm : Move s a s') : PidsOnce s' := by
  cases hm with
  | moved w rest copied hpc =>
    rw [Unchanged, hpc] at hcopy
    exact .moved hc h hpc hcopy
  | copiedBusy pid hpc =>
    -- the report is not about an idle worker, nor about one on its way
    refine ⟨h.nodup, ?_, nofun, nofun⟩
    rintro pid' copied ⟨⟩
    exact ⟨hreport, id⟩
  | unknown pid copied hpc hnone =>
    obtain ⟨hidle, hbusy⟩ := h.searching pid copied hpc
    refine ⟨h.nodup, nofun, ?_, nofun⟩
    rintro pid' ⟨⟩ hpid
    -- it is not idle, and if it were busy it would be in the copy
    exact (mem_pids_append.mp hpid).elim hidle fun hpid => hnone (hbusy hpid)
  | returned w rest copied hpc =>
    rw [Unchanged, hpc] at hcopy
    exact .returned hc h hpc hcopy
  | connected pid handler hpc hnew =>
    refine ⟨h.nodup, nofun, nofun, ?_⟩
    rintro w ⟨⟩
    exact h.connecting pid hpc
  | added w hpc => exact h.added hpc
  | copiedIdle hpc => exact ⟨h.nodup, h.searching, h.connecting, h.adding⟩
  | found w rest copied hpc => exact ⟨h.nodup, h.searching, h.connecting, h.adding⟩
  | foundDead w rest copied hpc => exact ⟨h.nodup, h.searching, h.connecting, h.adding⟩
  | exhausted copied hpc => exact ⟨h.nodup, h.searching, h.connecting, h.adding⟩
  | reported pid w rest copied hpc hperm => exact ⟨h.nodup, nofun, nofun, nofun⟩
  | refused pid handler hpc => exact ⟨h.nodup, nofun, nofun, nofun⟩

/-- **Pids.**  If moreover no pid reports that is idle, or on its way to the busy workers, then the
    pid of every worker that was added and not found dead is in exactly one of the two lists,
    exactly once: no other worker has it. -/
theorem pids_in_one_list (acts : List Act) (s : Coordinator) (hrun : exec step init acts = some s)
    (hok : Along step (fun s a => Unchanged s a ∧ Reports s a) init acts) :
    ∀ w ∈ s.added, w ∉ s.dead → (pids (s.idle_workers ++ s.busy_workers)).count w.pid = 1 := by
  have hplaced := (placed_of_exec hrun (hok.mono fun _ _ h => h.1)).2
  have hpids : PidsOnce s :=
    (exec_invariants_along (fun _ _ _ hc hst => copies_move hc (move_of_step hst))
      (fun _ _ _ hc hp h hst => pidsOnce_move hc hp h.1 h.2 (move_of_step hst))
      copies_init pidsOnce_init hok hrun).2
  intro w hw hdead
  have hmem : w ∈ s.idle_workers ++ s.busy_workers := by
    rw [← List.count_pos_iff, hplaced.count w hdead, List.count_pos_iff]
    exact hw
  exact List.count_eq_one_of_mem hpids.nodup (List.mem_map_of_mem hmem)

/-- The pid 7 reports twice while it is idle.  The copies are as they should be, and the pid is in
    both lists. -/
example : (exec step init [.create 7, .search, .connect 3 true, .add, .create 7, .search,
    .connect 4 true, .add, .accept, .check true, .move]).any (fun s =>
      7 ∈ pids s.idle_workers ∧ 7 ∈ pids s.busy_workers) = true ∧
    Along step Unchanged init [.create 7, .search, .connect 3 true, .add, .create 7, .search,
      .connect 4 true, .add, .accept, .check true, .move] := by
  decide

end Coordinator

end CPlayground.Monitor
