import CPlayground.Monitor.EndPoint
import Mathlib.Algebra.Order.Group.Multiset
import Mathlib.Data.Fintype.Basic
import Mathlib.Logic.Function.Basic
import Mathlib.Tactic.Abel

namespace CPlayground.Monitor.Export

open CPlayground.Trace

/-!
# `start` and `stop` of the exported forwarder

A Java host calls `start` and `stop`.  `start` makes a `Forwarder`, and a thread that runs its loop;
`stop` wakes the loop and joins the thread.  The destructor of the context calls `stop` once more.
All of this is kept in one static object without a lock, and `initialized` is never taken back.

A run interleaves the calls of any number of threads of the host with the service thread.  The loop
of the forwarder calls a callback for each event, and the quit byte is one event among the others.
What a callback does with its descriptor is left out, but not how long it takes: `accept_follower`
reads the pid of a new follower, and `notify_connecting2` and `peek_header` wait for a whole
message, so that a silent peer keeps the service in a callback for ever.

* `initializeWith_spec` — what `Forwarder::initialize` does with its three endpoints.
* `one_service` — if the calls of the host do not overlap, there is at most one service, ever, and
  its forwarder outlives it.
* `stop_returns` — `stop` comes back if the callbacks do, also when the service has not entered its
  loop yet; it waits for a callback that does not return.
-/

/-- The descriptors of two objects. -/
theorem perm_append_kept {κ : Type*} {opened closed kept opened' closed' kept' : List κ}
    (h : opened.Perm (closed ++ kept)) (h' : opened'.Perm (closed' ++ kept')) :
    (opened ++ opened').Perm ((closed ++ closed') ++ (kept ++ kept')) := by
  refine (h.append h').trans (Multiset.coe_eq_coe.mp ?_)
  simp only [← Multiset.coe_add]
  abel

/-- A `Forwarder`.  `registered` has the descriptors that `initialize` gave to its `Poll`, and
    `terminator` says that there is a byte in the pipe of the `Poll`. -/
structure Forwarder (κ : Type*) where
  id : Nat
  port : Int32 := 23402
  error_count : Nat := 0
  initialized : Bool := false
  registered : List κ := []
  terminator : Bool := false

/-- The system calls of `Forwarder::initialize`. -/
structure Outcome (κ : Type*) where
  unixServer : Calls κ
  signalFd : Calls κ
  tcpipServer : Calls κ

namespace Forwarder

variable {κ : Type*} {f : Forwarder κ} {e : EndPoint κ}

/-- `REGISTER`. -/
def REGISTER (f : Forwarder κ) (e : EndPoint κ) : Forwarder κ × EndPoint κ :=
  if e.valid then ({ f with registered := f.registered ++ e.fd.toList }, e.transferOwnership)
  else ({ f with error_count := f.error_count + 1 }, e)

/-- `Forwarder::initialize`, and its endpoints after they are destroyed. -/
def initializeWith (o : Outcome κ) (f : Forwarder κ) : Forwarder κ × List (EndPoint κ) :=
  if f.initialized then (f, [])
  else
    let unixServer := f.REGISTER (.unixServer o.unixServer)
    let signalFd := unixServer.1.REGISTER (.signalFd o.signalFd)
    let tcpipServer := signalFd.1.REGISTER (.tcpipServer false o.tcpipServer)
    ({ tcpipServer.1 with initialized := true },
      [unixServer.2.trigger, signalFd.2.trigger, tcpipServer.2.trigger])

/-- `REGISTER` counts an end point that is not valid, and only such a one. -/
theorem REGISTER_error_count (f : Forwarder κ) (e : EndPoint κ) :
    (f.REGISTER e).1.error_count = f.error_count + if e.valid then 0 else 1 := by
  rw [REGISTER]
  split <;> rfl

/-- What an endpoint has opened is closed by its destructor, or registered: `REGISTER` takes it only
    from an endpoint that is valid. -/
theorem REGISTER_spec (f : Forwarder κ) (h : e.Accounts) (hhanded : e.handed = []) :
    ∃ kept, (f.REGISTER e).1.registered = f.registered ++ kept ∧
      (f.REGISTER e).2.trigger.opened.Perm ((f.REGISTER e).2.trigger.closed ++ kept) := by
  rw [REGISTER]
  split
  case isTrue =>
    refine ⟨e.fd.toList, rfl, ?_⟩
    have hperm := h.transferOwnership.perm rfl (by
      rw [EndPoint.transferOwnership, hhanded]
      exact e.fd.toList_nodup)
    rwa [EndPoint.transferOwnership, hhanded] at hperm
  case isFalse =>
    refine ⟨[], (List.append_nil _).symm, ?_⟩
    have hperm := h.trigger.perm (EndPoint.trigger_cleanup e) (by
      rw [EndPoint.trigger_handed, hhanded]
      exact List.nodup_nil)
    rwa [EndPoint.trigger_handed, hhanded] at hperm

/-- **`Forwarder::initialize`** counts the servers that it could not make.  What was opened on the
    way is registered or closed. -/
theorem initializeWith_spec (o : Outcome κ) (f : Forwarder κ) (hf : f.initialized = false) :
    (f.initializeWith o).1.error_count = f.error_count
        + (if (EndPoint.unixServer o.unixServer).valid then 0 else 1)
        + (if (EndPoint.tcpipServer false o.tcpipServer).valid then 0 else 1) ∧
      ∃ kept, (f.initializeWith o).1.registered = f.registered ++ kept ∧
        ((f.initializeWith o).2.flatMap (·.opened)).Perm
          ((f.initializeWith o).2.flatMap (·.closed) ++ kept) := by
  rw [initializeWith, if_neg (by simp [hf])]
  obtain ⟨kept₁, hreg₁, hperm₁⟩ :=
    f.REGISTER_spec (EndPoint.accounts_unixServer o.unixServer) (EndPoint.handed_unixServer _)
  obtain ⟨kept₂, hreg₂, hperm₂⟩ := (f.REGISTER (.unixServer o.unixServer)).1.REGISTER_spec
    (EndPoint.accounts_signalFd o.signalFd) (EndPoint.handed_signalFd _)
  obtain ⟨kept₃, hreg₃, hperm₃⟩ :=
    ((f.REGISTER (.unixServer o.unixServer)).1.REGISTER (.signalFd o.signalFd)).1.REGISTER_spec
      (EndPoint.accounts_tcpipServer false o.tcpipServer) (EndPoint.handed_tcpipServer _ _)
  constructor
  · simp only [REGISTER_error_count, EndPoint.valid_signalFd, if_true, Nat.add_zero]
  · refine ⟨kept₁ ++ (kept₂ ++ kept₃), ?_, ?_⟩
    · simp only [hreg₃, hreg₂, hreg₁, List.append_assoc]
    · simp only [List.flatMap_cons, List.flatMap_nil, List.append_nil]
      exact perm_append_kept hperm₁ (perm_append_kept hperm₂ hperm₃)

end Forwarder

/-! ### The context -/

/-- The service thread: before its loop, in `epoll_wait` in the loop of a forwarder, in a callback
    of this loop, or at its end. -/
inductive Service where
  | begun
  | looping (id : Nat)
  | handling (id : Nat)
  | returned
  deriving DecidableEq

/-- The service is somewhere between its start and its end; if it is in a loop, or in a callback of
    a loop, it is that of the forwarder `f`. -/
def Service.With {κ : Type*} (f : Forwarder κ) (x : Service) : Prop :=
  x = .begun ∨ x = .looping f.id ∨ x = .handling f.id ∨ x = .returned

/-- Where a thread of the host is: in `start`, before the step it is named after, or in `stop`.
    `last` is the `stop` of the destructor of the context, after which the context is gone. -/
inductive Pc where
  | idle
  | load
  | initializeIt
  | spawn
  | setInitialized
  | quit (last : Bool)
  | join (last : Bool)
  | gone
  deriving DecidableEq

/-- `JniContext`.  The fields from `made` on record what was done: the forwarders that were made,
    the services that were started and joined, the descriptors, whether the process was
    terminated, and whether a forwarder was destroyed while the service was in its loop. -/
structure JniContext (τ κ : Type*) where
  callers : τ → Pc := fun _ => .idle
  service : Option Service := none
  forwarder : Option (Forwarder κ) := none
  forwarder_port : Int32 := 23402
  initialized : Bool := false
  made : Nat := 0
  started : Nat := 0
  joined : Nat := 0
  opened : List κ := []
  closed : List κ := []
  terminated : Bool := false
  freed : Bool := false

namespace JniContext

variable {τ κ : Type*}

/-- The descriptors of the forwarder. -/
def held (s : JniContext τ κ) : List κ :=
  match s.forwarder with
  | some f => f.registered
  | none   => []

/-- The service is in the loop of the forwarder, or in one of its callbacks. -/
def inUse (s : JniContext τ κ) : Bool :=
  match s.service, s.forwarder with
  | some (.looping id), some f  => id = f.id
  | some (.handling id), some f => id = f.id
  | _, _                        => false

/-- The service is in a callback. -/
def inCallback (s : JniContext τ κ) : Bool :=
  match s.service with
  | some (.handling _) => true
  | _                  => false

/-- The destructor of the forwarder.  Its `Poll` closes the descriptors. -/
def dropForwarder (s : JniContext τ κ) : JniContext τ κ :=
  { s with forwarder := none, closed := s.closed ++ s.held, freed := s.freed || s.inUse }

/-- `ctx.cfg.load(env, cfg)`, `ctx.forwarder.reset(new Forwarder(true))` and `setPort`.  `cfg` is
    `none` if it is null, or does not have the field. -/
def reset (s : JniContext τ κ) (cfg : Option Int32) : JniContext τ κ :=
  let port := cfg.getD s.forwarder_port
  { s.dropForwarder with
    forwarder_port := port, forwarder := some { id := s.made, port }, made := s.made + 1 }

/-- `ctx.forwarder->initialize()`. -/
def initializeForwarder (s : JniContext τ κ) (f : Forwarder κ) (o : Outcome κ) : JniContext τ κ :=
  { s with
    forwarder := some (f.initializeWith o).1
    opened := s.opened ++ (f.initializeWith o).2.flatMap (·.opened)
    closed := s.closed ++ (f.initializeWith o).2.flatMap (·.closed) }

/-- `ctx.forwarder->pollInstance().quit()`. -/
def trigger (s : JniContext τ κ) : JniContext τ κ :=
  { s with forwarder := s.forwarder.map fun f => { f with terminator := true } }

section Steps

variable [DecidableEq τ]

/-- The thread `c` is at another place. -/
def goto (s : JniContext τ κ) (c : τ) (pc : Pc) : JniContext τ κ :=
  { s with callers := Function.update s.callers c pc }

/-- `stop` returns.  After the last one the members are destroyed; the destructor of a thread that
    is not joined terminates the process. -/
def finish (s : JniContext τ κ) (c : τ) (last : Bool) : JniContext τ κ :=
  if last then { s.dropForwarder.goto c .gone with terminated := s.service.isSome }
  else s.goto c .idle

/-- `c` is a thread of the host, which goes through `start` or `stop` one access to the context at a
    time; the others are the steps of the service thread, in its loop and in the callbacks. -/
inductive Act (τ κ : Type*) where
  | start (c : τ)
  | reset (c : τ) (cfg : Option Int32)
  | initializeIt (c : τ) (o : Outcome κ)
  | spawn (c : τ)
  | setInitialized (c : τ)
  | stop (c : τ) (last : Bool)
  | quit (c : τ)
  | join (c : τ)
  | loop
  | callback          -- an event that is not the quit byte
  | callbackReturns
  | leave             -- the quit byte: its callback throws

/-- The steps that are not those of a callback. -/
def Act.own : Act τ κ → Bool
  | .callback | .callbackReturns => false
  | .start _ | .reset .. | .initializeIt .. | .spawn _ | .setInitialized _ | .stop .. | .quit _
  | .join _ | .loop | .leave => true

/-- A step of a thread, in a process that was not terminated. -/
def act (s : JniContext τ κ) : Act τ κ → Option (JniContext τ κ)
  | .start c =>
    if s.callers c = .idle then
      -- `EXPORT_SUCCESS` at once, or the body of `start`.
      some (if s.initialized then s else s.goto c .load)
    else none
  | .reset c cfg =>
    if s.callers c = .load then some ((s.reset cfg).goto c .initializeIt) else none
  | .initializeIt c o =>
    match s.forwarder with
    | none => none
    | some f =>
      if s.callers c = .initializeIt then
        let s := s.initializeForwarder f o
        -- `EXPORT_FAILURE` if a server is missing.
        some (s.goto c (if (f.initializeWith o).1.error_count = 0 then .spawn else .idle))
      else none
  | .spawn c =>
    if s.callers c = .spawn then
      -- A thread is assigned over one that is joinable.
      if s.service.isSome then some { s with terminated := true }
      else some { s.goto c .setInitialized with service := some .begun, started := s.started + 1 }
    else none
  | .setInitialized c =>
    if s.callers c = .setInitialized then some { s.goto c .idle with initialized := true } else none
  | .stop c last =>
    if s.callers c = .idle then
      some (if s.initialized ∧ s.service.isSome then s.goto c (.quit last) else s.finish c last)
    else none
  | .quit c =>
    match s.callers c with
    | .quit last => some (s.trigger.goto c (.join last))
    | _          => none
  | .join c =>
    match s.callers c, s.service with
    | .join last, some .returned =>
      some (finish { s with service := none, joined := s.joined + 1 } c last)
    -- `std::system_error`: another call of `stop` was first.
    | .join _, none => some { s with terminated := true }
    | _, _          => none
  | .loop =>
    match s.service, s.forwarder with
    | some .begun, some f => some { s with service := some (.looping f.id) }
    | _, _                => none
  | .callback =>
    match s.service, s.forwarder with
    | some (.looping id), some f =>
      if id = f.id then some { s with service := some (.handling id) } else none
    | _, _ => none
  | .callbackReturns =>
    match s.service, s.forwarder with
    | some (.handling id), some f =>
      if id = f.id then some { s with service := some (.looping id) } else none
    | _, _ => none
  | .leave =>
    match s.service, s.forwarder with
    | some (.looping id), some f =>
      if id = f.id ∧ f.terminator then some { s with service := some .returned } else none
    | _, _ => none

/-- A step, as long as the process was not terminated: a joinable `std::thread` that is assigned to
    or destroyed ends it. -/
def step (s : JniContext τ κ) (a : Act τ κ) : Option (JniContext τ κ) :=
  if s.terminated then none else s.act a

/-- A call begins when no other is on its way, as if the host had a lock around `start` and
    `stop`. -/
def Serial (s : JniContext τ κ) : Act τ κ → Prop
  | .start c  => ∀ d, d ≠ c → s.callers d = .idle
  | .stop c _ => ∀ d, d ≠ c → s.callers d = .idle
  | _         => True

instance [Fintype τ] (s : JniContext τ κ) : (a : Act τ κ) → Decidable (Serial s a)
  | .start c  => inferInstanceAs (Decidable (∀ d, d ≠ c → s.callers d = .idle))
  | .stop c _ => inferInstanceAs (Decidable (∀ d, d ≠ c → s.callers d = .idle))
  | .reset .. | .initializeIt .. | .spawn _ | .setInitialized _ | .quit _ | .join _ | .loop
  | .callback | .callbackReturns | .leave => .isTrue trivial

end Steps

/-! ### What a step can do -/

/-- The service thread only changes where it is: from `begun` to its end, and in and out of
    callbacks, always with the forwarder of its loop. -/
inductive ServiceMove (f : Forwarder κ) : Act τ κ → Service → Service → Prop where
  | loop : ServiceMove f .loop .begun (.looping f.id)
  | callback : ServiceMove f .callback (.looping f.id) (.handling f.id)
  | callbackReturns : ServiceMove f .callbackReturns (.handling f.id) (.looping f.id)
  | leave (hterm : f.terminator = true) : ServiceMove f .leave (.looping f.id) .returned

/-- The transitions of `act`, one per branch of `start` and `stop`, and those of the service. -/
inductive Move [DecidableEq τ] (s : JniContext τ κ) : Act τ κ → JniContext τ κ → Prop where
  | alreadyStarted (c : τ) (hc : s.callers c = .idle) : Move s (.start c) s
  | started (c : τ) (hc : s.callers c = .idle) (hinit : s.initialized = false) :
      Move s (.start c) (s.goto c .load)
  | reset (c : τ) (cfg : Option Int32) (hc : s.callers c = .load) :
      Move s (.reset c cfg) ((s.reset cfg).goto c .initializeIt)
  | initializedIt (c : τ) (o : Outcome κ) (f : Forwarder κ) (hf : s.forwarder = some f)
      (hc : s.callers c = .initializeIt) (pc : Pc) (hpc : pc = .spawn ∨ pc = .idle) :
      Move s (.initializeIt c o) ((s.initializeForwarder f o).goto c pc)
  | spawned (c : τ) (hc : s.callers c = .spawn) (hservice : s.service = none) :
      Move s (.spawn c)
        { s.goto c .setInitialized with service := some .begun, started := s.started + 1 }
  | spawnTerminates (c : τ) (hc : s.callers c = .spawn) (hservice : s.service.isSome) :
      Move s (.spawn c) { s with terminated := true }
  | setInitialized (c : τ) (hc : s.callers c = .setInitialized) :
      Move s (.setInitialized c) { s.goto c .idle with initialized := true }
  | stopping (c : τ) (last : Bool) (hc : s.callers c = .idle)
      (hserves : s.initialized = true ∧ s.service.isSome) :
      Move s (.stop c last) (s.goto c (.quit last))
  | nothingToStop (c : τ) (last : Bool) (hc : s.callers c = .idle)
      (hserves : ¬ (s.initialized = true ∧ s.service.isSome)) :
      Move s (.stop c last) (s.finish c last)
  | quit (c : τ) (last : Bool) (hc : s.callers c = .quit last) :
      Move s (.quit c) (s.trigger.goto c (.join last))
  | joined (c : τ) (last : Bool) (hc : s.callers c = .join last)
      (hservice : s.service = some .returned) :
      Move s (.join c) (finish { s with service := none, joined := s.joined + 1 } c last)
  | joinThrows (c : τ) (last : Bool) (hc : s.callers c = .join last) (hservice : s.service = none) :
      Move s (.join c) { s with terminated := true }
  | service (a : Act τ κ) (f : Forwarder κ) (x y : Service) (hf : s.forwarder = some f)
      (hservice : s.service = some x) (hmove : ServiceMove f a x y) :
      Move s a { s with service := some y }

/-- The step of a caller, by the place where it is: the parts of `start` behind the test of
    `initialized`. -/
theorem move_of_caller [DecidableEq τ] {s t : JniContext τ κ} {c : τ} {a : Act τ κ}
    (ha : (∃ cfg, a = .reset c cfg) ∨ (∃ o, a = .initializeIt c o) ∨ a = .spawn c ∨
      a = .setInitialized c) (h : s.act a = some t) : Move s a t := by
  rcases ha with ⟨cfg, rfl⟩ | ⟨o, rfl⟩ | rfl | rfl
  · simp only [act, Option.ite_none_right_eq_some, Option.some.injEq] at h
    obtain ⟨hc, rfl⟩ := h
    exact .reset c cfg hc
  -- `initialize` of the forwarder: the caller goes on to the thread, or returns with an error
  · simp only [act] at h
    split at h
    · cases h
    case h_2 f hf =>
      simp only [Option.ite_none_right_eq_some, Option.some.injEq] at h
      obtain ⟨hc, rfl⟩ := h
      refine .initializedIt c o f hf hc _ ?_
      split
      · exact .inl rfl
      · exact .inr rfl
  · simp only [act, Option.ite_none_right_eq_some] at h
    obtain ⟨hc, h⟩ := h
    -- a thread that is still there would terminate the program
    split at h
    case isTrue hservice =>
      cases h
      exact .spawnTerminates c hc hservice
    case isFalse hservice =>
      cases h
      exact .spawned c hc (by simpa using hservice)
  · simp only [act, Option.ite_none_right_eq_some, Option.some.injEq] at h
    obtain ⟨hc, rfl⟩ := h
    exact .setInitialized c hc

/-- The step of the service, by the place where it is, always with the forwarder that the context
    has. -/
theorem move_of_service [DecidableEq τ] {s t : JniContext τ κ} {a : Act τ κ}
    (ha : a = .loop ∨ a = .callback ∨ a = .callbackReturns ∨ a = .leave) (h : s.act a = some t) :
    Move s a t := by
  -- the service always works with the forwarder that the context has
  rcases ha with rfl | rfl | rfl | rfl
  · simp only [act] at h
    split at h <;> cases h
    case h_1 f hservice hf => exact .service _ f _ _ hf hservice .loop
  · simp only [act] at h
    split at h
    case h_2 => cases h
    case h_1 id f hservice hf =>
      simp only [Option.ite_none_right_eq_some, Option.some.injEq] at h
      obtain ⟨rfl, rfl⟩ := h
      exact .service _ f _ _ hf hservice .callback
  · simp only [act] at h
    split at h
    case h_2 => cases h
    case h_1 id f hservice hf =>
      simp only [Option.ite_none_right_eq_some, Option.some.injEq] at h
      obtain ⟨rfl, rfl⟩ := h
      exact .service _ f _ _ hf hservice .callbackReturns
  · simp only [act] at h
    split at h
    case h_2 => cases h
    case h_1 id f hservice hf =>
      simp only [Option.ite_none_right_eq_some, Option.some.injEq] at h
      obtain ⟨⟨rfl, hterm⟩, rfl⟩ := h
      exact .service _ f _ _ hf hservice (.leave hterm)

/-- Every enabled step is one of the transitions.  Invariants are proved over these, so the branches
    are found only here. -/
theorem move_of_step [DecidableEq τ] {s t : JniContext τ κ} {a : Act τ κ}
    (h : s.step a = some t) : Move s a t := by
  simp only [step, Option.ite_none_left_eq_some] at h
  -- after `std::terminate` there are no more steps
  replace h := h.2
  cases a with
  | start c =>
    simp only [act, Option.ite_none_right_eq_some, Option.some.injEq] at h
    obtain ⟨hc, rfl⟩ := h
    split
    case isTrue => exact .alreadyStarted c hc
    case isFalse hinit => exact .started c hc (Bool.eq_false_iff.mpr hinit)
  | reset c cfg => exact move_of_caller (.inl ⟨cfg, rfl⟩) h
  | initializeIt c o => exact move_of_caller (.inr (.inl ⟨o, rfl⟩)) h
  | spawn c => exact move_of_caller (.inr (.inr (.inl rfl))) h
  | setInitialized c => exact move_of_caller (.inr (.inr (.inr rfl))) h
  | stop c last =>
    simp only [act, Option.ite_none_right_eq_some, Option.some.injEq] at h
    obtain ⟨hc, rfl⟩ := h
    split
    case isTrue hserves => exact .stopping c last hc hserves
    case isFalse hserves => exact .nothingToStop c last hc hserves
  | quit c =>
    simp only [act] at h
    split at h
    case h_2 => cases h
    case h_1 last hc =>
      cases h
      exact .quit c last hc
  | join c =>
    -- the service has ended, or there is none to join
    simp only [act] at h
    split at h
    case h_1 last hc hservice =>
      cases h
      exact .joined c last hc hservice
    case h_2 last hc hservice =>
      cases h
      exact .joinThrows c last hc hservice
    case h_3 => cases h
  | loop => exact move_of_service (.inl rfl) h
  | callback => exact move_of_service (.inr (.inl rfl)) h
  | callbackReturns => exact move_of_service (.inr (.inr (.inl rfl))) h
  | leave => exact move_of_service (.inr (.inr (.inr rfl))) h

/-! ### The descriptors -/

/-- A descriptor that was opened is closed, or with the forwarder; it is there only once. -/
def Accounts (s : JniContext τ κ) : Prop := s.opened.Perm (s.closed ++ s.held)

variable {s t : JniContext τ κ} {a : Act τ κ} {c : τ} {p q : Pc}

/-- Nothing is open at first. -/
theorem accounts_init : Accounts ({} : JniContext τ κ) := List.Perm.refl []

/-- The descriptors of a forwarder that is destroyed are closed. -/
theorem Accounts.dropForwarder (h : Accounts s) : Accounts s.dropForwarder :=
  h.trans (List.Perm.of_eq (List.append_nil _).symm)

/-- `initialize` opens descriptors, and closes or registers each of them. -/
theorem Accounts.initializeForwarder (h : Accounts s) {f : Forwarder κ} (hf : s.forwarder = some f)
    (o : Outcome κ) : Accounts (s.initializeForwarder f o) := by
  have hheld : s.held = f.registered := by rw [held, hf]
  rw [Accounts, hheld] at h
  cases hinit : f.initialized with
  | true =>
    simpa [Accounts, held, JniContext.initializeForwarder, Forwarder.initializeWith, hinit] using h
  | false =>
    obtain ⟨-, kept, hreg, hperm⟩ := f.initializeWith_spec o hinit
    have hnew := perm_append_kept h hperm
    rwa [← hreg] at hnew

/-- The quit byte is no descriptor. -/
theorem Accounts.trigger (h : Accounts s) : Accounts s.trigger := by
  have hheld : s.trigger.held = s.held := by
    cases hf : s.forwarder <;> simp [held, JniContext.trigger, hf]
  rw [Accounts, hheld]
  exact h

/-- The end of `stop`, with the members if it is the last one. -/
theorem Accounts.finish [DecidableEq τ] (h : Accounts s) (c : τ) (last : Bool) :
    Accounts (s.finish c last) := by
  rw [JniContext.finish]
  split
  · exact h.dropForwarder
  · exact h

/-- No step loses a descriptor, or closes it twice. -/
theorem accounts_move [DecidableEq τ] (h : Accounts s) (hm : Move s a t) : Accounts t := by
  cases hm with
  | alreadyStarted | started | spawned | spawnTerminates | setInitialized | stopping | joinThrows
    | service => exact h
  | reset c cfg => exact h.dropForwarder
  | initializedIt c o f hf => exact h.initializeForwarder hf o
  | nothingToStop c last => exact h.finish c last
  | quit c last => exact h.trigger
  | joined c last =>
    exact Accounts.finish (s := { s with service := none, joined := s.joined + 1 }) h c last

/-! ### Calls that do not overlap -/

/-- No service was started. -/
def Untouched (s : JniContext τ κ) : Prop :=
  s.initialized = false ∧ s.service = none ∧ s.started = 0 ∧ s.joined = 0

/-- There is a service, with the forwarder of the context. -/
def Serving (s : JniContext τ κ) : Prop :=
  (∃ f x, s.forwarder = some f ∧ s.service = some x ∧ x.With f) ∧ s.started = 1 ∧ s.joined = 0

/-- The service was joined. -/
def Over (s : JniContext τ κ) : Prop :=
  s.initialized = true ∧ s.service = none ∧ s.started = 1 ∧ s.joined = 1

/-- The context while one thread of the host is at a place, and the others are not in a call. -/
def Shape (s : JniContext τ κ) : Pc → Prop
  | .idle           => Untouched s ∨ s.initialized = true ∧ Serving s ∨ Over s
  | .load           => Untouched s
  | .initializeIt   => Untouched s
  | .spawn          => Untouched s ∧ s.forwarder.isSome
  | .setInitialized => s.initialized = false ∧ Serving s
  | .quit _         => s.initialized = true ∧ Serving s
  | .join _         => s.initialized = true ∧ Serving s ∧
      ∃ f, s.forwarder = some f ∧ f.terminator = true
  | .gone           => s.service = none ∧ s.forwarder = none ∧ s.started ≤ 1 ∧ s.joined = s.started

/-- At most one thread of the host is in a call; `p` is where it is. -/
def Only (s : JniContext τ κ) (p : Pc) : Prop :=
  (∀ d, s.callers d = .idle) ∧ p = .idle ∨
    ∃ c, s.callers c = p ∧ p ≠ .idle ∧ ∀ d, d ≠ c → s.callers d = .idle

/-- What holds between two steps, when the calls do not overlap: the process runs, no forwarder was
    freed under its service, and the context has the shape that belongs to the one caller that is on
    its way. -/
structure Inv (s : JniContext τ κ) : Prop where
  terminated : s.terminated = false
  freed : s.freed = false
  shape : ∃ p, Only s p ∧ Shape s p

/-- A thread that is in a call is the only one. -/
theorem Only.of_caller (h : Only s p) (hc : s.callers c = q) (hq : q ≠ .idle) :
    p = q ∧ ∀ d, d ≠ c → s.callers d = .idle := by
  rcases h with ⟨hall, -⟩ | ⟨d, hd, -, hothers⟩
  · exact absurd ((hall c).symm.trans hc) hq.symm
  · obtain rfl : c = d := by
      by_contra hne
      exact hq (hc.symm.trans (hothers c hne))
    exact ⟨hd.symm.trans hc, hothers⟩

/-- A call that may begin is preceded by none. -/
theorem Only.of_serial (h : Only s p) (hc : s.callers c = .idle)
    (hothers : ∀ d, d ≠ c → s.callers d = .idle) : p = .idle := by
  rcases h with ⟨-, rfl⟩ | ⟨d, hd, hp, -⟩
  · rfl
  · by_cases hdc : d = c
    · exact absurd (hd.symm.trans (hdc ▸ hc)) hp
    · exact absurd (hd.symm.trans (hothers d hdc)) hp

/-- The only thread that is in a call goes to another place. -/
theorem only_goto [DecidableEq τ] (hothers : ∀ d, d ≠ c → s.callers d = .idle) (q : Pc) :
    Only (s.goto c q) q := by
  have hne : ∀ d, d ≠ c → (s.goto c q).callers d = .idle := fun d hd =>
    (Function.update_of_ne hd ..).trans (hothers d hd)
  have hc : (s.goto c q).callers c = q := Function.update_self ..
  by_cases hq : q = .idle
  · refine .inl ⟨fun d => ?_, hq⟩
    by_cases hd : d = c
    · rw [hd, hc, hq]
    · exact hne d hd
  · exact .inr ⟨c, hc, hq, hne⟩

/-- A thread that is in a call goes on. -/
theorem Inv.of_caller (h : Inv s) (hc : s.callers c = q) (hq : q ≠ .idle) :
    Shape s q ∧ ∀ d, d ≠ c → s.callers d = .idle := by
  obtain ⟨p, honly, hshape⟩ := h.shape
  obtain ⟨rfl, hothers⟩ := honly.of_caller hc hq
  exact ⟨hshape, hothers⟩

/-- A call begins. -/
theorem Inv.of_serial (h : Inv s) (hc : s.callers c = .idle)
    (hothers : ∀ d, d ≠ c → s.callers d = .idle) : Shape s .idle := by
  obtain ⟨p, honly, hshape⟩ := h.shape
  exact honly.of_serial hc hothers ▸ hshape

/-- Without a service no forwarder is in use. -/
theorem inUse_eq_false (h : s.service = none) : s.inUse = false := by
  rw [inUse, h]

/-- There is a thread to join. -/
theorem Serving.isSome (h : Serving s) : s.service.isSome := by
  obtain ⟨⟨f, x, -, hx, -⟩, -⟩ := h
  rw [hx]
  rfl

/-- The service stays with its forwarder. -/
theorem ServiceMove.with {f : Forwarder κ} {x y : Service} (h : ServiceMove f a x y) :
    y.With f := by
  cases h with
  | loop => exact .inr (.inl rfl)
  | callback => exact .inr (.inr (.inl rfl))
  | callbackReturns => exact .inr (.inl rfl)
  | leave hterm => exact .inr (.inr (.inr rfl))

section Calls

variable [DecidableEq τ]

/-- `start` makes a forwarder.  There is no service that could be in the loop of the one before. -/
theorem Inv.reset (h : Inv s) (hc : s.callers c = .load) (cfg : Option Int32) :
    Inv ((s.reset cfg).goto c .initializeIt) := by
  obtain ⟨hshape, hothers⟩ := h.of_caller hc nofun
  refine ⟨h.terminated, ?_, .initializeIt, only_goto hothers _, hshape⟩
  simp [JniContext.reset, goto, dropForwarder, h.freed, inUse_eq_false hshape.2.1]

/-- `start` has initialized the forwarder, and goes on if all servers are there. -/
theorem Inv.initializedIt (h : Inv s) (hc : s.callers c = .initializeIt) (f : Forwarder κ)
    (o : Outcome κ) (hp : p = .spawn ∨ p = .idle) :
    Inv ((s.initializeForwarder f o).goto c p) := by
  obtain ⟨hshape, hothers⟩ := h.of_caller hc nofun
  refine ⟨h.terminated, h.freed, _, only_goto hothers _, ?_⟩
  rcases hp with rfl | rfl
  · exact ⟨hshape, rfl⟩
  · exact .inl hshape

/-- `start` starts the service. -/
theorem Inv.spawned (h : Inv s) (hc : s.callers c = .spawn) :
    Inv { s.goto c .setInitialized with service := some .begun, started := s.started + 1 } := by
  obtain ⟨⟨hshape, hf⟩, hothers⟩ := h.of_caller hc nofun
  obtain ⟨f, hf⟩ := Option.isSome_iff_exists.mp hf
  refine ⟨h.terminated, h.freed, .setInitialized, only_goto hothers _, hshape.1, ?_⟩
  exact ⟨⟨f, _, hf, rfl, .inl rfl⟩, congrArg (· + 1) hshape.2.2.1, hshape.2.2.2⟩

/-- `stop` finds a service. -/
theorem Inv.stopping (h : Inv s) (hc : s.callers c = .idle)
    (hothers : ∀ d, d ≠ c → s.callers d = .idle)
    (hserves : s.initialized = true ∧ s.service.isSome) (last : Bool) :
    Inv (s.goto c (.quit last)) := by
  refine ⟨h.terminated, h.freed, .quit last, only_goto hothers _, hserves.1, ?_⟩
  have hnone : s.service ≠ none := Option.isSome_iff_ne_none.mp hserves.2
  rcases h.of_serial hc hothers with hu | hserve | hover
  · exact absurd hu.2.1 hnone
  · exact hserve.2
  · exact absurd hover.2.1 hnone

/-- `stop` returns, before there was a service or after it was joined. -/
theorem Inv.finish (hterm : s.terminated = false) (hfreed : s.freed = false)
    (hothers : ∀ d, d ≠ c → s.callers d = .idle) (hservice : s.service = none)
    (hshape : Untouched s ∨ Over s) (last : Bool) : Inv (s.finish c last) := by
  have hcounts : s.started ≤ 1 ∧ s.joined = s.started := by
    rcases hshape with ⟨-, -, h⟩ | ⟨-, -, h⟩ <;> omega
  cases last with
  | true =>
    exact ⟨by simp [JniContext.finish, hservice], by
      simp [JniContext.finish, goto, dropForwarder, hfreed, inUse_eq_false hservice],
      .gone, only_goto hothers _, hservice, rfl, hcounts⟩
  | false => exact ⟨hterm, hfreed, .idle, only_goto hothers _, hshape.imp id .inr⟩

/-- `stop` finds no service. -/
theorem Inv.nothingToStop (h : Inv s) (hc : s.callers c = .idle)
    (hothers : ∀ d, d ≠ c → s.callers d = .idle)
    (hserves : ¬ (s.initialized = true ∧ s.service.isSome)) (last : Bool) :
    Inv (s.finish c last) := by
  rcases h.of_serial hc hothers with hu | hserve | hover
  · exact .finish h.terminated h.freed hothers hu.2.1 (.inl hu) last
  · exact absurd ⟨hserve.1, hserve.2.isSome⟩ hserves
  · exact .finish h.terminated h.freed hothers hover.2.1 (.inr hover) last

/-- `stop` writes the quit byte. -/
theorem Inv.quit (h : Inv s) {last : Bool} (hc : s.callers c = .quit last) :
    Inv (s.trigger.goto c (.join last)) := by
  obtain ⟨⟨hinit, ⟨f, x, hf, hx, hwith⟩, hcounts⟩, hothers⟩ := h.of_caller hc nofun
  have hf' : s.trigger.forwarder = some { f with terminator := true } := by
    simp [JniContext.trigger, hf]
  exact ⟨h.terminated, h.freed, .join last, only_goto hothers _, hinit,
    ⟨⟨_, x, hf', hx, hwith⟩, hcounts⟩, _, hf', rfl⟩

/-- `stop` joins the service. -/
theorem Inv.joined (h : Inv s) {last : Bool} (hc : s.callers c = .join last) :
    Inv (JniContext.finish { s with service := none, joined := s.joined + 1 } c last) := by
  obtain ⟨⟨hinit, ⟨-, hcounts⟩, -⟩, hothers⟩ := h.of_caller hc nofun
  exact Inv.finish (s := { s with service := none, joined := s.joined + 1 }) h.terminated h.freed
    hothers rfl (.inr ⟨hinit, rfl, hcounts.1, congrArg (· + 1) hcounts.2⟩) last

end Calls

/-- The service goes on.  The threads of the host do not move, and the service stays with its
    forwarder. -/
theorem Inv.service (h : Inv s) {f : Forwarder κ} {x y : Service} (hf : s.forwarder = some f)
    (hservice : s.service = some x) (hy : y.With f) : Inv { s with service := some y } := by
  obtain ⟨p, honly, hshape⟩ := h.shape
  refine ⟨h.terminated, h.freed, p, honly, ?_⟩
  have hnone : s.service ≠ none := by simp [hservice]
  have hserving : Serving s → Serving { s with service := some y } :=
    fun hserve => ⟨⟨f, y, hf, rfl, hy⟩, hserve.2⟩
  cases p with
  | idle =>
    rcases hshape with hu | hserve | hover
    · exact absurd hu.2.1 hnone
    · exact .inr (.inl ⟨hserve.1, hserving hserve.2⟩)
    · exact absurd hover.2.1 hnone
  | load => exact absurd hshape.2.1 hnone
  | initializeIt => exact absurd hshape.2.1 hnone
  | spawn => exact absurd hshape.1.2.1 hnone
  | setInitialized => exact ⟨hshape.1, hserving hshape.2⟩
  | quit last => exact ⟨hshape.1, hserving hshape.2⟩
  | join last => exact ⟨hshape.1, hserving hshape.2.1, hshape.2.2⟩
  | gone => exact absurd hshape.1 hnone

/-- **A step of a thread keeps the invariant**, when the calls do not overlap.  In particular none
    of them terminates the process. -/
theorem inv_move [DecidableEq τ] (h : Inv s) (hserial : Serial s a) (hm : Move s a t) : Inv t := by
  cases hm with
  | alreadyStarted c hc => exact h
  | started c hc hinit =>
    refine ⟨h.terminated, h.freed, .load, only_goto hserial _, ?_⟩
    -- `initialized` is not set, so there was no service yet
    rcases h.of_serial hc hserial with hu | hserve | hover
    · exact hu
    · exact absurd (hinit.symm.trans hserve.1) nofun
    · exact absurd (hinit.symm.trans hover.1) nofun
  | reset c cfg hc => exact h.reset hc cfg
  | initializedIt c o f hf hc pc hpc => exact h.initializedIt hc f o hpc
  | spawned c hc hservice => exact h.spawned hc
  -- not reached: there is no service yet
  | spawnTerminates c hc hservice =>
    have hnone := (h.of_caller hc nofun).1.1.2.1
    rw [hnone] at hservice
    cases hservice
  | setInitialized c hc =>
    obtain ⟨hshape, hothers⟩ := h.of_caller hc nofun
    exact ⟨h.terminated, h.freed, .idle, only_goto hothers _, .inr (.inl ⟨rfl, hshape.2⟩)⟩
  | stopping c last hc hserves => exact h.stopping hc hserial hserves last
  | nothingToStop c last hc hserves => exact h.nothingToStop hc hserial hserves last
  | quit c last hc => exact h.quit hc
  | joined c last hc hservice => exact h.joined hc
  -- not reached: `stop` has found the service, and nobody else joins it
  | joinThrows c last hc hservice =>
    have hsome := (h.of_caller hc nofun).1.2.1.isSome
    rw [hservice] at hsome
    cases hsome
  | service a f x y hf hservice hmove => exact h.service hf hservice hmove.with

/-- One service, started once and joined once: it is there from the start to the join. -/
theorem Inv.tally (h : Inv s) :
    s.started ≤ 1 ∧ s.joined ≤ s.started ∧ (s.service.isSome ↔ s.joined < s.started) := by
  -- the tally before there is a service, and while there is one
  have huntouched : Untouched s → s.started ≤ 1 ∧ s.joined ≤ s.started ∧
      (s.service.isSome ↔ s.joined < s.started) := by
    rintro ⟨-, hservice, hstarted, hjoined⟩
    simp [hservice, hstarted, hjoined]
  have hserving : Serving s → s.started ≤ 1 ∧ s.joined ≤ s.started ∧
      (s.service.isSome ↔ s.joined < s.started) := by
    intro hserve
    simp [hserve.isSome, hserve.2.1, hserve.2.2]
  obtain ⟨p, -, hshape⟩ := h.shape
  cases p with
  | idle =>
    rcases hshape with hu | hserve | ⟨-, hservice, hstarted, hjoined⟩
    · exact huntouched hu
    · exact hserving hserve.2
    · simp [hservice, hstarted, hjoined]
  | load => exact huntouched hshape
  | initializeIt => exact huntouched hshape
  | spawn => exact huntouched hshape.1
  | setInitialized => exact hserving hshape.2
  | quit last => exact hserving hshape.2
  | join last => exact hserving hshape.2.1
  | gone =>
    obtain ⟨hservice, -, hstarted, hjoined⟩ := hshape
    simp [hservice, hjoined, hstarted]

/-- The context of a library that was just loaded. -/
theorem inv_init : Inv ({} : JniContext τ κ) :=
  ⟨rfl, rfl, .idle, .inl ⟨fun _ => rfl, rfl⟩, .inl ⟨rfl, rfl, rfl, rfl⟩⟩

/-- The run lemma. -/
theorem inv_exec [DecidableEq τ] {as : List (Act τ κ)} (h : Inv s)
    (hserial : Along step Serial s as) (hrun : exec step s as = some t) : Inv t :=
  exec_invariant_along (fun _ _ _ hs ha hst => inv_move hs ha (move_of_step hst)) h hserial hrun

/-- **One service.**  If the calls of the host do not overlap, then in every run the process is not
    terminated, and no forwarder is destroyed while the service is in its loop.  At most one service
    is ever started: after it was joined there is none, also when `start` returns
    `EXPORT_SUCCESS`.  The descriptors of forwarders that were given up are closed, and those of the
    last one when the context is destroyed. -/
theorem one_service [DecidableEq τ] {as : List (Act τ κ)}
    (hserial : Along step Serial ({} : JniContext τ κ) as) (hrun : exec step {} as = some s) :
    s.terminated = false ∧ s.freed = false ∧ s.started ≤ 1 ∧
      (s.service.isSome ↔ s.joined < s.started) ∧ s.opened.Perm (s.closed ++ s.held) ∧
      ∀ c, s.callers c = .gone → s.service = none ∧ s.opened.Perm s.closed := by
  have hinv : Inv s := inv_exec inv_init hserial hrun
  have hacc : Accounts s :=
    exec_invariant (fun _ _ _ h hst => accounts_move h (move_of_step hst)) accounts_init hrun
  have hgone : ∀ c, s.callers c = .gone → s.service = none ∧ s.opened.Perm s.closed := by
    intro c hc
    obtain ⟨⟨hservice, hf, -⟩, -⟩ := hinv.of_caller hc nofun
    have hheld : s.held = [] := by rw [held, hf]
    rw [Accounts, hheld, List.append_nil] at hacc
    exact ⟨hservice, hacc⟩
  obtain ⟨hstarted, -, hservice⟩ := hinv.tally
  exact ⟨hinv.terminated, hinv.freed, hstarted, hservice, hacc, hgone⟩

/-- A host with two threads.  The first call of `start` fails, the second one succeeds, and after
    `stop` a third one succeeds as well. -/
def restarted : List (Act (Fin 2) Nat) :=
  [.start 0, .reset 0 none,
    .initializeIt 0 ⟨{ fd := some 3, bind := false }, { fd := some 4 }, { fd := some 5 }⟩,
    .start 1, .reset 1 (some 9000),
    .initializeIt 1 ⟨{ fd := some 6 }, { fd := some 7 }, { fd := some 8 }⟩, .spawn 1,
    .setInitialized 1, .stop 0 false, .quit 0, .loop, .leave, .join 0, .start 1, .stop 0 true]

/-- The start that fails and the one that succeeds open three descriptors each, and all six are
    closed. -/
theorem one_service_restarted : ∃ s : JniContext (Fin 2) Nat,
    Along step Serial {} restarted ∧ exec step {} restarted = some s ∧ s.callers 0 = .gone ∧
      s.started = 1 ∧ s.opened = [3, 4, 5, 6, 7, 8] ∧ s.opened.Perm s.closed := by
  have hserial : Along step Serial ({} : JniContext (Fin 2) Nat) restarted := by decide +kernel
  obtain ⟨s, hrun, htest⟩ := exists_of_exec_any
    (show (exec step ({} : JniContext (Fin 2) Nat) restarted).any (fun s =>
      s.callers 0 = .gone ∧ s.started = 1 ∧ s.opened = [3, 4, 5, 6, 7, 8]) = true by decide +kernel)
  obtain ⟨hgone, hstarted, hopened⟩ := of_decide_eq_true htest
  obtain ⟨-, -, -, -, -, hclosed⟩ := one_service hserial hrun
  exact ⟨s, hserial, hrun, hgone, hstarted, hopened, (hclosed 0 hgone).2⟩

/-- Calls of `start` that overlap: the forwarder of the first one is destroyed in the loop of its
    service, and the process is terminated when the second service is started. -/
example : (exec step ({} : JniContext (Fin 2) Nat)
    [.start 0, .start 1, .reset 0 none,
      .initializeIt 0 ⟨{ fd := some 3 }, { fd := some 4 }, { fd := some 5 }⟩, .spawn 0, .loop,
      .reset 1 none, .initializeIt 1 ⟨{ fd := some 6 }, { fd := some 7 }, { fd := some 8 }⟩,
      .spawn 1]).any (fun s => s.freed ∧ s.terminated) = true := by
  decide +kernel

/-! ### `stop` comes back -/

/-- The thread is in `stop`, and will join the service. -/
def InStop (s : JniContext τ κ) (c : τ) : Prop :=
  ∃ last, s.callers c = .quit last ∨ s.callers c = .join last

/-- The steps before the service can be joined, without those of callbacks. -/
def left (s : JniContext τ κ) (c : τ) : Nat :=
  (match s.callers c with
  | .quit _ => 1
  | _       => 0) +
  match s.service with
  | some .begun        => 2
  | some (.looping _)  => 1
  | some (.handling _) => 1
  | _                  => 0

/-- These are at most the quit byte, the start of the loop and its end. -/
theorem left_le (s : JniContext τ κ) (c : τ) : s.left c ≤ 3 := by
  rw [left]
  split <;> split <;> omega

/-- A thread that is in `stop` is in a call. -/
theorem InStop.ne_idle (h : InStop s c) : s.callers c ≠ .idle := by
  obtain ⟨last, hc | hc⟩ := h <;> simp [hc]

/-- The thread that is in `stop` is the only one that is in a call. -/
theorem InStop.of_caller (h : Inv s) (hc : InStop s c) {d : τ} (hd : s.callers d = q)
    (hq : q ≠ .idle) : d = c ∧ ∃ last, q = .quit last ∨ q = .join last := by
  obtain rfl : d = c := by
    by_contra hne
    exact hq (hd.symm.trans ((h.of_caller rfl hc.ne_idle).2 d hne))
  exact ⟨rfl, hd ▸ hc⟩

/-- No other call begins during `stop`. -/
theorem InStop.not_serial (hc : InStop s c) {d : τ} (hd : s.callers d = .idle)
    (hothers : ∀ e, e ≠ d → s.callers e = .idle) : False := by
  by_cases hcd : c = d
  · exact hc.ne_idle (hcd ▸ hd)
  · exact hc.ne_idle (hothers c hcd)

/-- Before the end of `stop` the service was not joined. -/
theorem InStop.joined (hc : InStop s c) (h : Inv s) : s.joined = 0 := by
  obtain ⟨last, hc | hc⟩ := hc
  · exact (h.of_caller hc nofun).1.2.2.2
  · exact (h.of_caller hc nofun).1.2.1.2.2

/-- What `stop` does behind the join joins nothing. -/
theorem joined_finish [DecidableEq τ] (s : JniContext τ κ) (c : τ) (last : Bool) :
    (s.finish c last).joined = s.joined := by
  rw [finish]
  split <;> rfl

/-- A service that was joined stays so. -/
theorem joined_move [DecidableEq τ] (hm : Move s a t) : s.joined ≤ t.joined := by
  cases hm with
  | alreadyStarted | started | reset | initializedIt | spawned | spawnTerminates | setInitialized
    | stopping | quit | joinThrows | service => exact Nat.le_refl _
  | nothingToStop c last => exact Nat.le_of_eq (joined_finish s c last).symm
  | joined c last =>
    rw [joined_finish]
    exact Nat.le_succ _

/-- The steps during `stop`: the thread writes the quit byte, or joins the service that has come to
    its end, or the service goes on. -/
inductive StopMove [DecidableEq τ] (s : JniContext τ κ) (c : τ) :
    Act τ κ → JniContext τ κ → Prop where
  | quit (last : Bool) (hc : s.callers c = .quit last) :
      StopMove s c (.quit c) (s.trigger.goto c (.join last))
  | joined (last : Bool) (hservice : s.service = some .returned) :
      StopMove s c (.join c) (finish { s with service := none, joined := s.joined + 1 } c last)
  | service (a : Act τ κ) (f : Forwarder κ) (x y : Service) (hservice : s.service = some x)
      (hmove : ServiceMove f a x y) : StopMove s c a { s with service := some y }

section Stop

variable [DecidableEq τ]

/-- There are no other steps during `stop`: the calls do not overlap, and the service only goes on
    towards its end. -/
theorem InStop.stopMove (h : Inv s) (hc : InStop s c) (hserial : Serial s a) (hm : Move s a t) :
    StopMove s c a t := by
  cases hm with
  | alreadyStarted d hd => exact (hc.not_serial hd hserial).elim
  | started d hd => exact (hc.not_serial hd hserial).elim
  | stopping d last hd => exact (hc.not_serial hd hserial).elim
  | nothingToStop d last hd => exact (hc.not_serial hd hserial).elim
  | reset d cfg hd => simpa using (hc.of_caller h hd nofun).2
  | initializedIt d o f hf hd => simpa using (hc.of_caller h hd nofun).2
  | spawned d hd => simpa using (hc.of_caller h hd nofun).2
  | spawnTerminates d hd => simpa using (hc.of_caller h hd nofun).2
  | setInitialized d hd => simpa using (hc.of_caller h hd nofun).2
  | quit d last hd =>
    obtain ⟨rfl, -⟩ := hc.of_caller h hd nofun
    exact .quit last hd
  | joined d last hd hservice =>
    obtain ⟨rfl, -⟩ := hc.of_caller h hd nofun
    exact .joined last hservice
  | joinThrows d last hd hservice =>
    have hsome := (h.of_caller hd nofun).1.2.1.isSome
    rw [hservice] at hsome
    cases hsome
  | service a f x y hf hservice hmove => exact .service a f x y hservice hmove

/-- **One step nearer.**  A step during `stop` joins the service, or it is one less that is left,
    unless it is one of a callback. -/
theorem InStop.of_move (h : Inv s) (hc : InStop s c) (hserial : Serial s a) (hm : Move s a t) :
    t.joined = 1 ∨ InStop t c ∧ t.left c + a.own.toNat = s.left c := by
  cases hc.stopMove h hserial hm with
  | quit last hquit =>
    have hjoin : (s.trigger.goto c (.join last)).callers c = .join last := Function.update_self ..
    refine .inr ⟨⟨last, .inr hjoin⟩, ?_⟩
    simp only [left, hjoin, hquit, Nat.zero_add, Act.own, Bool.toNat_true]
    exact Nat.add_comm ..
  | joined last hservice =>
    refine .inl ?_
    rw [joined_finish]
    exact congrArg (· + 1) (hc.joined h)
  | service a f x y hservice hmove =>
    refine .inr ⟨hc, ?_⟩
    cases hmove with
    | loop => simp only [left, hservice, Act.own, Bool.toNat_true]
    | callback => simp only [left, hservice, Act.own, Bool.toNat_false, Nat.add_zero]
    | callbackReturns => simp only [left, hservice, Act.own, Bool.toNat_false, Nat.add_zero]
    | leave hterm => simp only [left, hservice, Act.own, Bool.toNat_true]

/-- **A callback that does not return** keeps the service from the join: until it does, every step
    of the caller of `stop` leaves it in `stop`. -/
theorem InStop.blocked (h : Inv s) (hc : InStop s c) (hin : s.inCallback = true)
    (hserial : Serial s a) (hm : Move s a t) (ha : a ≠ .callbackReturns) :
    InStop t c ∧ t.inCallback = true := by
  cases hc.stopMove h hserial hm with
  | quit last hquit => exact ⟨⟨last, .inr (Function.update_self ..)⟩, hin⟩
  | joined last hservice =>
    rw [inCallback, hservice] at hin
    cases hin
  | service a f x y hservice hmove =>
    rw [inCallback, hservice] at hin
    cases hmove with
    | loop => cases hin
    | callback => cases hin
    | callbackReturns => exact absurd rfl ha
    | leave hterm => cases hin

/-- **No deadlock.**  The byte in the pipe of the terminator is there when the service enters its
    loop, and when it is back from a callback. -/
theorem InStop.enabled (h : Inv s) (hc : InStop s c) :
    s.inCallback = true ∨ ∃ a, Act.own a = true ∧ Serial s a ∧ (s.step a).isSome := by
  obtain ⟨last, hc | hc⟩ := hc
  · exact .inr ⟨.quit c, rfl, trivial, by simp [JniContext.step, act, h.terminated, hc]⟩
  · obtain ⟨⟨-, ⟨⟨f, x, hf, hx, hwith⟩, -⟩, f', hf', hterm⟩, -⟩ := h.of_caller hc nofun
    obtain rfl : f = f' := Option.some.inj (hf.symm.trans hf')
    rcases hwith with rfl | rfl | rfl | rfl
    · exact .inr ⟨.loop, rfl, trivial, by simp [JniContext.step, act, h.terminated, hx, hf]⟩
    · exact .inr ⟨.leave, rfl, trivial,
        by simp [JniContext.step, act, h.terminated, hx, hf, hterm]⟩
    · exact .inl (by rw [inCallback, hx])
    · exact .inr ⟨.join c, rfl, trivial, by simp [JniContext.step, act, h.terminated, hx, hc]⟩

/-- After the join there is no service to be joined. -/
theorem joined_run {as : List (Act τ κ)} (h : Inv s) (hjoined : s.joined = 1)
    (hserial : Along step Serial s as) (hrun : exec step s as = some t) : t.joined = 1 := by
  refine (exec_invariant_along (P := fun u => Inv u ∧ u.joined = 1) ?_ ⟨h, hjoined⟩ hserial hrun).2
  rintro u a v ⟨hu, hone⟩ ha hst
  have hv := inv_move hu ha (move_of_step hst)
  have hmono := joined_move (move_of_step hst)
  obtain ⟨hstarted, hle, -⟩ := hv.tally
  exact ⟨hv, by omega⟩

/-- The run lemma for `of_move`: the steps that were taken and those that are left. -/
theorem InStop.run {as : List (Act τ κ)} (h : Inv s) (hc : InStop s c)
    (hserial : Along step Serial s as) (hrun : exec step s as = some t) :
    t.joined = 1 ∨ InStop t c ∧ t.left c + as.countP Act.own = s.left c := by
  induction as generalizing s with
  | nil =>
    cases hrun
    exact .inr ⟨hc, rfl⟩
  | cons a as ih =>
    obtain ⟨u, hu, hrun⟩ := exec_cons_eq_some.mp hrun
    obtain ⟨ha, hrest⟩ := along_cons.mp hserial
    have hinv := inv_move h ha (move_of_step hu)
    rcases hc.of_move h ha (move_of_step hu) with hjoined | ⟨hc', hleft⟩
    · exact .inl (joined_run hinv hjoined (hrest u hu) hrun)
    · refine (ih hinv hc' (hrest u hu) hrun).imp id fun ⟨ht, hsum⟩ => ⟨ht, ?_⟩
      rw [List.countP_cons, ← hleft, ← hsum]
      cases a.own <;> simp [Nat.add_assoc]

/-- The run lemma for `blocked`. -/
theorem InStop.blocked_run {as : List (Act τ κ)} (h : Inv s) (hc : InStop s c)
    (hin : s.inCallback = true) (hserial : Along step Serial s as)
    (hrun : exec step s as = some t) (hnone : .callbackReturns ∉ as) :
    InStop t c ∧ t.inCallback = true := by
  induction as generalizing s with
  | nil =>
    cases hrun
    exact ⟨hc, hin⟩
  | cons a as ih =>
    obtain ⟨u, hu, hrun⟩ := exec_cons_eq_some.mp hrun
    obtain ⟨ha, hrest⟩ := along_cons.mp hserial
    rw [List.mem_cons, not_or] at hnone
    obtain ⟨hc', hin'⟩ := hc.blocked h hin ha (move_of_step hu) (Ne.symm hnone.1)
    exact ih (inv_move h ha (move_of_step hu)) hc' hin' (hrest u hu) hrun hnone.2

/-- **`stop` comes back if the callbacks do.**  From the moment that `stop` has found a service, in
    every run in which the calls do not overlap, the service is joined after four steps that are
    not those of a callback.  Until then there is a thread that can take such a step, unless the
    service is in a callback, and while this callback does not return, neither does `stop`. -/
theorem stop_returns {as bs : List (Act τ κ)}
    (hserial : Along step Serial ({} : JniContext τ κ) as) (hrun : exec step {} as = some s)
    (hc : InStop s c) (hserial' : Along step Serial s bs) (hrun' : exec step s bs = some t) :
    (t.joined = 1 ∧ ¬ InStop t c ∨ bs.countP Act.own < 4 ∧
      (t.inCallback = true ∨ ∃ a, Act.own a = true ∧ Serial t a ∧ (t.step a).isSome)) ∧
    (s.inCallback = true → .callbackReturns ∉ bs → t.joined = 0 ∧ InStop t c) := by
  have hs : Inv s := inv_exec inv_init hserial hrun
  have ht : Inv t := inv_exec hs hserial' hrun'
  constructor
  · rcases hc.run hs hserial' hrun' with hjoined | ⟨hstop, hlength⟩
    · refine .inl ⟨hjoined, fun hstop => ?_⟩
      have hzero := hstop.joined ht
      omega
    · have hleft := left_le s c
      exact .inr ⟨by omega, hstop.enabled ht⟩
  · intro hin hnone
    have hstop := (hc.blocked_run hs hin hserial' hrun' hnone).1
    exact ⟨hstop.joined ht, hstop⟩

end Stop

/-- The host stops the service before it has entered its loop, and `stop` comes back.  If a callback
    has begun by then that does not return, it waits. -/
theorem stop_returns_callback : ∃ s t s' t' : JniContext (Fin 2) Nat,
    exec step {} (restarted.take 9) = some s ∧
      exec step s [.quit 0, .loop, .callback, .callbackReturns, .leave, .join 0] = some t ∧
      t.joined = 1 ∧ ¬ InStop t 0 ∧
    exec step {} (restarted.take 9 ++ [.loop, .callback]) = some s' ∧
      exec step s' [.quit 0] = some t' ∧ t'.joined = 0 ∧ InStop t' 0 := by
  -- the two runs up to `stop`: without a callback, and with one that has begun
  have hserial : Along step Serial ({} : JniContext (Fin 2) Nat) (restarted.take 9) := by
    decide +kernel
  have hserial' : Along step Serial ({} : JniContext (Fin 2) Nat)
      (restarted.take 9 ++ [.loop, .callback]) := by decide +kernel
  obtain ⟨s, hrun, htest⟩ := exists_of_exec_any
    (show (exec step ({} : JniContext (Fin 2) Nat) (restarted.take 9)).any (fun s =>
      s.callers 0 = .quit false ∧
        Along step Serial s [.quit 0, .loop, .callback, .callbackReturns, .leave, .join 0] ∧
        (exec step s [.quit 0, .loop, .callback, .callbackReturns, .leave, .join 0]).isSome)
        = true by decide +kernel)
  obtain ⟨s', hrun', htest'⟩ := exists_of_exec_any
    (show (exec step ({} : JniContext (Fin 2) Nat) (restarted.take 9 ++ [.loop, .callback])).any
      (fun s => s.callers 0 = .quit false ∧ s.inCallback ∧ Along step Serial s [.quit 0] ∧
        (exec step s [.quit 0]).isSome) = true by decide +kernel)
  obtain ⟨hc, hafter, hsome⟩ := of_decide_eq_true htest
  obtain ⟨hc', hin, hafter', hsome'⟩ := of_decide_eq_true htest'
  obtain ⟨t, ht⟩ := Option.isSome_iff_exists.mp hsome
  obtain ⟨t', ht'⟩ := Option.isSome_iff_exists.mp hsome'
  -- the second part of the theorem for the callback, and the first one for the end
  have hwaits := (stop_returns hserial' hrun' ⟨false, .inl hc'⟩ hafter' ht').2 hin (by simp)
  rcases (stop_returns hserial hrun ⟨false, .inl hc⟩ hafter ht).1 with hdone | hleft
  · exact ⟨s, t, s', t', hrun, ht, hdone.1, hdone.2, hrun', ht', hwaits⟩
  · exact absurd hleft.1 (by decide)

end JniContext

end CPlayground.Monitor.Export
