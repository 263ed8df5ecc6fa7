import CPlayground.Lib.Table
import CPlayground.Relay.Collector.HandOver

namespace CPlayground.Relay.Collector

open CPlayground.Trace CPlayground.Table

/-!
# `Collector`: reconnecting to the server

`Produce` waits for events and triggers the handler of each.  The handler of the server socket
erases itself when the server disconnects, closes the socket and puts a handler for the timer in its
place (`OnDisconnect`); the handler of the timer tries to connect, and if it succeeds it takes
itself out again and adds a handler for the new socket (`OnConnect`).

A handler closes its descriptor when it is destroyed, unless it is cancelled before.  The handler of
the server and those of the sources are held by their own callbacks, and are never destroyed.

The calls for epoll and the timer are taken to succeed.  An attempt to connect may fail at each of
its calls, and a new socket gets any number that is not in use.

* `Producer.Sound` — the invariant between two dispatched events.
* `collector_reconnect` — one handler for the socket or for the timer, by the state, and no
  descriptor is closed that is still needed.
-/

/-- What a descriptor is, and what the callbacks of a handler are. -/
inductive Kind where
  | server
  | timer
  | source
  deriving DecidableEq

/-- `EPOLLRDHUP` and `EPOLLIN`. -/
structure Events where
  rdhup : Bool
  readable : Bool

/-- `Connection`: the descriptor, which is `none` for -1, and the callbacks. -/
structure Connection where
  fd : Option Nat
  callback : Kind
  deriving DecidableEq

/-- The collector in `Produce`, with the open descriptors and the epoll instance. -/
structure Producer where
  fd : Option Nat               -- `fd_`
  timerFd : Nat                 -- `timer_fd_`
  state : State                 -- `state_`
  handlers : List Connection    -- `handlers_`
  armed : Bool                  -- the timer
  fds : AList fun _ : Nat => Kind
  interest : AList fun _ : Nat => Events
  events : List (Nat × Events)  -- what `epoll_wait` has returned and is not dispatched yet
  closed : List Nat             -- the descriptors that were closed

/-- How the calls of `Connect` go. -/
structure Attempt where
  socket : Option Nat
  options : Bool
  connect : Bool

namespace Producer

/-- `close`, which also takes the descriptor out of the epoll instance. -/
def close (s : Producer) (fd : Nat) : Producer :=
  { s with fds := s.fds.erase fd, interest := s.interest.erase fd, closed := fd :: s.closed }

/-- `FdHelper::Close(fd_)`. -/
def closeServer (s : Producer) : Producer :=
  match s.fd with
  | some fd => { s.close fd with fd := none }
  | none    => s

/-- `Connection::~Connection`. -/
def destroy (s : Producer) (c : Connection) : Producer :=
  match c.fd with
  | some fd => s.close fd
  | none    => s

/-- `Connection::cancel`. -/
def cancel (c : Connection) : Connection := { c with fd := none }

/-- `Connection::epollRegister`. -/
def epollRegister (s : Producer) (c : Connection) (events : Events) : Producer :=
  match c.fd with
  | some fd => { s with interest := s.interest.insert fd events }
  | none    => s

/-- `Connection::epollUnregister`. -/
def epollUnregister (s : Producer) (c : Connection) : Producer :=
  match c.fd with
  | some fd => { s with interest := s.interest.erase fd }
  | none    => s

/-- `Collector::Connect`: whether it has succeeded.  `none` if the number of the new socket is in
    use. -/
def connect (s : Producer) (a : Attempt) : Option (Producer × Bool) :=
  match s.fd with
  | some _ => some (s, a.connect)
  | none   =>
    match a.socket with
    | none    => some (s, false)
    | some fd =>
      if (s.fds.lookup fd).isSome then none
      else
        let s := { s with fds := s.fds.insert fd .server, fd := some fd }
        if a.options then some (s, a.connect) else some (s.closeServer, false)

/-- Taking the timer out of the handlers, at the beginning of `OnConnect`. -/
def disarm (s : Producer) : Producer :=
  let s := { s with armed := false }
  let c : Connection := ⟨some s.timerFd, .timer⟩
  let s := (s.epollUnregister c).destroy (cancel c)
  match s.handlers.find? (·.fd = some s.timerFd) with
  | some handler => { s with handlers := s.handlers.erase handler }.destroy (cancel handler)
  | none         => s

/-- Adding a handler for the server, which is the rest of `OnConnect`. -/
def addServer (s : Producer) : Producer :=
  let handler : Connection := ⟨s.fd, .server⟩
  let s := s.epollRegister handler ⟨true, false⟩
  { s with handlers := handler :: s.handlers, state := .READY }

/-- `Collector::OnConnect`. -/
def onConnect (s : Producer) : Producer :=
  (if s.state = .DISCONNECTED then s.disarm else s).addServer

/-- `Collector::OnDisconnect`. -/
def onDisconnect (s : Producer) : Producer :=
  let handler : Connection := ⟨some s.timerFd, .timer⟩
  let s := { s with armed := true }.epollRegister handler ⟨false, true⟩
  { s with handlers := handler :: s.handlers, state := .DISCONNECTED }

/-- `Connection::eventTrigger` with the callbacks of the handler. -/
def eventTrigger (s : Producer) (handler : Connection) (events : Events) (a : Attempt) :
    Option Producer :=
  if events.rdhup then
    let s := s.epollUnregister handler
    match handler.callback with
    | .server => some { s with handlers := s.handlers.erase handler }.closeServer.onDisconnect
    | .timer  => some s
    | .source => some { s with handlers := s.handlers.erase handler }
  else if events.readable then
    match handler.callback with
    | .timer            => (s.connect a).map fun p => if p.2 then p.1.onConnect else p.1
    | .server | .source => some s
  else some s

/-- A step of `Produce`: `epoll_wait` with a batch of events, or the dispatch of one of them with
    what the calls of the handler return. -/
inductive Act where
  | wait (events : List (Nat × Events))
  | dispatch (a : Attempt)

/-- An event that `epoll_wait` can return. -/
def Reported (s : Producer) (p : Nat × Events) : Prop :=
  ∃ mask ∈ s.interest.lookup p.1, (p.2.rdhup → mask.rdhup) ∧ (p.2.readable → mask.readable)

instance (s : Producer) (p : Nat × Events) : Decidable (Reported s p) :=
  inferInstanceAs (Decidable (∃ mask ∈ s.interest.lookup p.1, _ ∧ _))

/-- One step of `Produce`. -/
def step (s : Producer) : Act → Option Producer
  | .wait events =>
    if s.events = [] ∧ (events.map Prod.fst).Nodup ∧ ∀ p ∈ events, Reported s p then
      some { s with events := events }
    else none
  | .dispatch a =>
    match s.events with
    | []                  => none
    | (fd, flags) :: rest =>
      let s := { s with events := rest }
      match s.handlers.find? (·.fd = some fd) with
      | some handler => s.eventTrigger handler flags a
      | none         => some s

/-- The collector after its constructor has connected to the server. -/
def constructed (server timer : Nat) : Producer where
  fd := some server
  timerFd := timer
  state := .READY
  handlers := []
  armed := false
  fds := (AList.insert server .server ∅).insert timer .timer
  interest := ∅
  events := []
  closed := []

/-- `registerSource` with a descriptor that was just opened. -/
def registerSource (s : Producer) (fd : Nat) : Producer :=
  let handler : Connection := ⟨some fd, .source⟩
  let s := { s with fds := s.fds.insert fd .source }.epollRegister handler ⟨true, true⟩
  { s with handlers := handler :: s.handlers }

/-- The collector after the first `OnConnect` of `Produce`. -/
def start (server timer : Nat) (sources : List Nat) : Producer :=
  (sources.foldl registerSource (constructed server timer)).onConnect

/-! ### The invariant -/

/-- The descriptors of the collector, with the handlers of the sources: the timer is open all the
    time, the socket of the server is the one in `fd`, and each source has its own. -/
structure Owns (s : Producer) (sources : List Connection) : Prop where
  timer : s.fds.lookup s.timerFd = some .timer
  server : ∀ fd, s.fds.lookup fd = some .server ↔ s.fd = some fd
  sources : ∀ c ∈ sources, c.callback = .source ∧
    ∃ fd, c.fd = some fd ∧ s.fds.lookup fd = some .source
  closed : s.timerFd ∉ s.closed

/-- The handler for the socket or for the timer, by the state. -/
def Serves (s : Producer) (handler : Connection) : Prop :=
  (s.state = .READY ∧ s.armed = false ∧ ∃ fd, s.fd = some fd ∧ handler = ⟨some fd, .server⟩) ∨
    (s.state = .DISCONNECTED ∧ s.armed = true ∧ handler = ⟨some s.timerFd, .timer⟩)

/-- A descriptor with a handler.  There is no `EPOLLRDHUP` from a timer. -/
def Handled (s : Producer) (fd : Nat) (events : Events) : Prop :=
  (∃ c ∈ s.handlers, c.fd = some fd) ∧ (fd = s.timerFd → events.rdhup = false)

/-- Every descriptor that is registered, or that has an event, has a handler. -/
structure Tracked (s : Producer) : Prop where
  interest : ∀ fd events, s.interest.lookup fd = some events → Handled s fd events
  nodup : (s.events.map Prod.fst).Nodup
  events : ∀ p ∈ s.events, Handled s p.1 p.2

/-- What holds between two dispatched events: the first handler is the one for the socket or for the
    timer, by the state, and the others are those of the sources. -/
structure Sound (s : Producer) : Prop where
  handlers : ∃ handler sources, s.handlers = handler :: sources ∧ Owns s sources ∧ Serves s handler
  tracked : Tracked s

/-- What holds while there is neither a handler for the server nor for the timer, inside of
    `OnDisconnect` and `OnConnect`. -/
structure Between (s : Producer) : Prop where
  owns : Owns s s.handlers
  tracked : Tracked s

variable {s s' : Producer} {sources : List Connection} {handler : Connection} {a : Attempt}
  {fd : Nat} {events : Events}

/-- A descriptor whose handlers are kept. -/
theorem Handled.mono (h : Handled s fd events) (htimer : s'.timerFd = s.timerFd)
    (hkept : ∀ c ∈ s.handlers, c.fd = some fd → c ∈ s'.handlers) : Handled s' fd events := by
  obtain ⟨⟨c, hc, hfd⟩, hevents⟩ := h
  exact ⟨⟨c, hkept c hc hfd, hfd⟩, htimer ▸ hevents⟩

/-- A new handler is registered. -/
theorem Tracked.add (h : Tracked s) (hfd : handler.fd = some fd)
    (hrdhup : fd = s.timerFd → events.rdhup = false) (htimer : s'.timerFd = s.timerFd)
    (hhandlers : s'.handlers = handler :: s.handlers)
    (hinterest : s'.interest = s.interest.insert fd events) (hevents : s'.events = s.events) :
    Tracked s' := by
  have hkept : ∀ {fd events}, Handled s fd events → Handled s' fd events := fun hhandled =>
    hhandled.mono htimer fun c hc _ => hhandlers ▸ List.mem_cons_of_mem _ hc
  refine ⟨fun fd' events' hlookup => ?_, hevents ▸ h.nodup, fun p hp => ?_⟩
  · rw [hinterest] at hlookup
    rcases lookup_insert_eq_some.mp hlookup with ⟨rfl, rfl⟩ | ⟨-, hlookup⟩
    · exact ⟨⟨handler, hhandlers ▸ List.mem_cons_self, hfd⟩, htimer ▸ hrdhup⟩
    · exact hkept (h.interest fd' events' hlookup)
  · rw [hevents] at hp
    exact hkept (h.events p hp)

/-- The handlers of a descriptor that has no further event are taken out, together with its
    registration; the other events still have theirs. -/
theorem Tracked.remove (h : Tracked s) (hnew : fd ∉ s.events.map Prod.fst)
    (htimer : s'.timerFd = s.timerFd)
    (hhandlers : ∀ c ∈ s.handlers, c.fd ≠ some fd → c ∈ s'.handlers)
    (hinterest : s'.interest = s.interest.erase fd) (hevents : s'.events = s.events) :
    Tracked s' := by
  have hkept : ∀ {fd' events}, fd' ≠ fd → Handled s fd' events → Handled s' fd' events := by
    intro fd' events hne hhandled
    refine hhandled.mono htimer fun c hc hcfd => hhandlers c hc ?_
    rw [hcfd, Ne, Option.some.injEq]
    exact hne
  refine ⟨fun fd' events' hlookup => ?_, hevents ▸ h.nodup, fun p hp => ?_⟩
  · rw [hinterest] at hlookup
    obtain ⟨hne, hlookup⟩ := lookup_erase_eq_some.mp hlookup
    exact hkept hne (h.interest fd' events' hlookup)
  · rw [hevents] at hp
    have hne : p.1 ≠ fd := by
      rintro rfl
      exact hnew (List.mem_map_of_mem hp)
    exact hkept hne (h.events p hp)

/-- Nothing changes but that fewer descriptors are registered. -/
theorem Tracked.mono (h : Tracked s) (htimer : s'.timerFd = s.timerFd)
    (hhandlers : s'.handlers = s.handlers) (hevents : s'.events = s.events)
    (hinterest : ∀ fd events, s'.interest.lookup fd = some events →
      s.interest.lookup fd = some events) : Tracked s' := by
  have hkept : ∀ {fd events}, Handled s fd events → Handled s' fd events := fun hhandled =>
    hhandled.mono htimer fun c hc _ => hhandlers ▸ hc
  refine ⟨fun fd' events' hlookup => ?_, hevents ▸ h.nodup, fun p hp => ?_⟩
  · exact hkept (h.interest fd' events' (hinterest fd' events' hlookup))
  · rw [hevents] at hp
    exact hkept (h.events p hp)

/-- `Owns` is about the descriptors only. -/
theorem Owns.congr (h : Owns s sources) (htimer : s'.timerFd = s.timerFd) (hfd : s'.fd = s.fd)
    (hfds : s'.fds = s.fds) (hclosed : s'.closed = s.closed) : Owns s' sources := by
  refine ⟨?_, ?_, ?_, ?_⟩
  · rw [hfds, htimer]
    exact h.timer
  · rw [hfds, hfd]
    exact h.server
  · rw [hfds]
    exact h.sources
  · rw [hclosed, htimer]
    exact h.closed

/-- The server socket has another number than the timer and the sources. -/
theorem Owns.ne_of_lookup (h : Owns s sources) {fd' : Nat} {kind : Kind}
    (hfd : s.fds.lookup fd = some kind) (hne : kind ≠ .server) (hserver : s.fd = some fd') :
    fd ≠ fd' := by
  rintro rfl
  rw [(h.server fd).mpr hserver, Option.some.injEq] at hfd
  exact hne hfd.symm

/-- The socket of the server is closed, and it was nobody else's: the timer and the sources have
    other numbers. -/
theorem Owns.closeServer (h : Owns s sources) :
    Owns s.closeServer sources ∧ s.closeServer.fd = none := by
  unfold Producer.closeServer
  cases hfd : s.fd with
  | none => exact ⟨h, hfd⟩
  | some server =>
    have htimer : s.timerFd ≠ server := h.ne_of_lookup h.timer (by decide) hfd
    refine ⟨⟨?_, fun fd => ?_, fun c hc => ?_, ?_⟩, rfl⟩
    · exact lookup_erase_eq_some.mpr ⟨htimer, h.timer⟩
    · have hserver := h.server fd
      rw [hfd, Option.some.injEq] at hserver
      simp only [close, lookup_erase_eq_some, reduceCtorEq, iff_false, not_and]
      exact fun hne heq => hne (hserver.mp heq).symm
    · obtain ⟨hcallback, fd, hc, hsource⟩ := h.sources c hc
      have hne : fd ≠ server := h.ne_of_lookup hsource (by decide) hfd
      exact ⟨hcallback, fd, hc, lookup_erase_eq_some.mpr ⟨hne, hsource⟩⟩
    · exact List.mem_cons.not.mpr (not_or.mpr ⟨htimer, h.closed⟩)

/-! ### Connecting -/

/-- A new socket, whose number is not in use, becomes the one in `fd`. -/
theorem Owns.socket (h : Owns s sources) (hfd : s.fd = none) {server : Nat}
    (hnew : s.fds.lookup server = none) :
    Owns { s with fds := s.fds.insert server .server, fd := some server } sources := by
  have hne : ∀ {fd kind}, s.fds.lookup fd = some kind → fd ≠ server := by
    rintro fd kind hlookup rfl
    rw [hnew] at hlookup
    cases hlookup
  refine ⟨?_, fun fd => ?_, fun c hc => ?_, h.closed⟩
  · exact lookup_insert_eq_some.mpr (.inr ⟨hne h.timer, h.timer⟩)
  · have hserver := h.server fd
    rw [hfd] at hserver
    rw [lookup_insert_eq_some, hserver, Option.some.injEq]
    simp [eq_comm]
  · obtain ⟨hcallback, fd, hc, hsource⟩ := h.sources c hc
    exact ⟨hcallback, fd, hc, lookup_insert_eq_some.mpr (.inr ⟨hne hsource, hsource⟩)⟩

/-- An attempt to connect closes the socket that it has opened unless all its calls succeed. -/
theorem Owns.connect {ok : Bool} (hs : Owns s sources) (h : s.connect a = some (s', ok)) :
    Owns s' sources ∧ (ok = true → ∃ fd, s'.fd = some fd) := by
  unfold Producer.connect at h
  cases hfd : s.fd with
  | some server =>
    rw [hfd, Option.some.injEq, Prod.mk.injEq] at h
    obtain ⟨rfl, -⟩ := h
    exact ⟨hs, fun _ => ⟨server, hfd⟩⟩
  | none =>
    rw [hfd] at h
    cases hsocket : a.socket with
    | none =>
      rw [hsocket, Option.some.injEq, Prod.mk.injEq] at h
      obtain ⟨rfl, rfl⟩ := h
      exact ⟨hs, by simp⟩
    | some server =>
      simp only [hsocket] at h
      split_ifs at h with hused hoptions
      · cases h
        have hnew : s.fds.lookup server = none := by simpa using hused
        exact ⟨hs.socket hfd hnew, fun _ => ⟨server, rfl⟩⟩
      · cases h
        have hnew : s.fds.lookup server = none := by simpa using hused
        exact ⟨(hs.socket hfd hnew).closeServer.1, by simp⟩

/-- What `Connect` leaves as it is. -/
theorem connect_frame {ok : Bool} (h : s.connect a = some (s', ok)) :
    s'.timerFd = s.timerFd ∧ s'.state = s.state ∧ s'.armed = s.armed ∧ s'.handlers = s.handlers ∧
      s'.events = s.events ∧
      ∀ fd events, s'.interest.lookup fd = some events → s.interest.lookup fd = some events := by
  unfold Producer.connect at h
  repeat' split at h
  all_goals cases h
  all_goals refine ⟨rfl, rfl, rfl, rfl, rfl, fun fd events hlookup => ?_⟩
  all_goals first
    | exact hlookup
    | exact (lookup_erase_eq_some.mp hlookup).2

/-! ### Between two handlers -/

/-- Taking the first handler out. -/
theorem Sound.between (hs : Sound s) (hhandlers : s.handlers = handler :: sources)
    (howns : Owns s sources) (hfd : handler.fd = some fd) (hnew : fd ∉ s.events.map Prod.fst) :
    Between { s with interest := s.interest.erase fd, handlers := sources } := by
  refine ⟨howns.congr rfl rfl rfl rfl,
    hs.tracked.remove hnew rfl (fun c hc hcfd => ?_) rfl rfl⟩
  rw [hhandlers, List.mem_cons] at hc
  rcases hc with rfl | hc
  · exact absurd hfd hcfd
  · exact hc

/-- `closeServer` is called between two handlers: the old one is gone, and the new one is not there
    yet. -/
theorem Between.closeServer (h : Between s) : Between s.closeServer := by
  have howns := h.owns.closeServer.1
  unfold Producer.closeServer at howns ⊢
  split at howns
  · exact ⟨howns, h.tracked.mono rfl rfl rfl fun fd events hlookup =>
      (lookup_erase_eq_some.mp hlookup).2⟩
  · exact h

/-- A handler for the timer. -/
theorem Between.onDisconnect (h : Between s) : Sound s.onDisconnect :=
  ⟨⟨_, s.handlers, rfl, h.owns.congr rfl rfl rfl rfl,
    .inr ⟨rfl, rfl, rfl⟩⟩, h.tracked.add rfl (fun _ => rfl) rfl rfl rfl rfl⟩

/-- A handler for the server. -/
theorem Between.addServer (h : Between s) (hfd : s.fd = some fd) (harmed : s.armed = false) :
    Sound s.addServer := by
  have haddServer : s.addServer = { s with
      interest := s.interest.insert fd ⟨true, false⟩
      handlers := ⟨some fd, .server⟩ :: s.handlers
      state := .READY } := by
    unfold Producer.addServer epollRegister
    rw [hfd]
  have hne : s.timerFd ≠ fd := h.owns.ne_of_lookup h.owns.timer (by decide) hfd
  rw [haddServer]
  exact ⟨⟨_, s.handlers, rfl, h.owns.congr rfl rfl rfl rfl,
    .inl ⟨rfl, harmed, fd, hfd, rfl⟩⟩,
    h.tracked.add rfl (fun heq => absurd heq.symm hne) rfl rfl rfl rfl⟩

/-- Taking the timer out in `OnConnect`. -/
theorem disarm_eq (hhandlers : s.handlers = ⟨some s.timerFd, .timer⟩ :: sources) :
    s.disarm = { s with
      armed := false, interest := s.interest.erase s.timerFd, handlers := sources } := by
  unfold disarm
  simp [epollUnregister, destroy, cancel, hhandlers]

/-! ### Dispatching -/

/-- An event of the server. -/
theorem sound_server (hs : Sound s) (hhandlers : s.handlers = ⟨some fd, .server⟩ :: sources)
    (howns : Owns s sources) (hnew : fd ∉ s.events.map Prod.fst)
    (h : s.eventTrigger ⟨some fd, .server⟩ events a = some s') : Sound s' := by
  unfold eventTrigger at h
  split_ifs at h
  · -- the server has hung up: its handler goes, the socket is closed, and the timer is armed
    simp only [epollUnregister, hhandlers, List.erase_cons_head, Option.some.injEq] at h
    subst h
    exact (hs.between hhandlers howns rfl hnew).closeServer.onDisconnect
  · cases h
    exact hs
  · cases h
    exact hs

/-- An event of the timer: the collector tries to connect, and on success it has the handler of the
    socket instead of that of the timer. -/
theorem sound_timer (hs : Sound s) (hhandlers : s.handlers = ⟨some s.timerFd, .timer⟩ :: sources)
    (howns : Owns s sources) (hstate : s.state = .DISCONNECTED) (harmed : s.armed = true)
    (hnew : s.timerFd ∉ s.events.map Prod.fst) (hrdhup : events.rdhup = false)
    (h : s.eventTrigger ⟨some s.timerFd, .timer⟩ events a = some s') : Sound s' := by
  unfold eventTrigger at h
  rw [hrdhup, if_neg (by decide)] at h
  split_ifs at h
  · obtain ⟨⟨t, ok⟩, hconnect, rfl⟩ := Option.map_eq_some_iff.mp h
    obtain ⟨howns', hok⟩ := howns.connect hconnect
    obtain ⟨htimer, hstate', harmed', hhandlers', hevents', hinterest⟩ := connect_frame hconnect
    -- `Connect` leaves the handler of the timer where it is, whatever comes of it
    have hhandlers'' : t.handlers = ⟨some t.timerFd, .timer⟩ :: sources := by
      rw [hhandlers', hhandlers, htimer]
    have ht : Sound t := by
      refine ⟨⟨_, sources, hhandlers'', howns', .inr ⟨hstate'.trans hstate, ?_, rfl⟩⟩,
        hs.tracked.mono htimer hhandlers' hevents' hinterest⟩
      exact harmed'.trans harmed
    cases ok with
    | false => exact ht
    | true =>
      obtain ⟨server, hserver⟩ := hok rfl
      have hbetween := ht.between hhandlers'' howns' rfl (by rw [hevents', htimer]; exact hnew)
      show Sound t.onConnect
      unfold onConnect
      rw [if_pos (hstate'.trans hstate), disarm_eq hhandlers'']
      exact Between.addServer ⟨hbetween.owns.congr rfl rfl rfl rfl,
        hbetween.tracked.mono rfl rfl rfl fun _ _ => id⟩ hserver rfl
  · cases h
    exact hs

/-- An event of a source: a datagram changes no connection, and after a hangup the handler of the
    source is gone; the producer is as before. -/
theorem sound_source (hs : Sound s) {c : Connection} (hhandlers : s.handlers = handler :: sources)
    (howns : Owns s sources) (hserves : Serves s handler) (hc : c ∈ sources) (hfd : c.fd = some fd)
    (hnew : fd ∉ s.events.map Prod.fst) (h : s.eventTrigger c events a = some s') : Sound s' := by
  have hcallback := (howns.sources c hc).1
  unfold eventTrigger at h
  rw [hcallback] at h
  split_ifs at h
  · -- the handler for the server or the timer is another one, and stays
    have hne : handler ≠ c := by
      rintro rfl
      rcases hserves with ⟨-, -, fd, -, rfl⟩ | ⟨-, -, rfl⟩ <;> cases hcallback
    simp only [epollUnregister, hfd, Option.some.injEq] at h
    subst h
    refine ⟨⟨handler, sources.erase c, ?_, ⟨howns.timer, howns.server, fun c' hc' => ?_,
      howns.closed⟩, hserves⟩, hs.tracked.remove hnew rfl (fun c' hc' hne' => ?_) rfl rfl⟩
    · rw [hhandlers, List.erase_cons_tail (by simpa using hne)]
    · exact howns.sources c' (List.mem_of_mem_erase hc')
    · have hother : c' ≠ c := by
        rintro rfl
        exact hne' hfd
      exact (List.mem_erase_of_ne hother).mpr hc'
  · cases h
    exact hs
  · cases h
    exact hs

/-- Other events to dispatch, which have handlers. -/
theorem Sound.setEvents (hs : Sound s) {events : List (Nat × Events)}
    (hnodup : (events.map Prod.fst).Nodup) (hevents : ∀ p ∈ events, Handled s p.1 p.2) :
    Sound { s with events := events } := by
  obtain ⟨handler, sources, hhandlers, howns, hserves⟩ := hs.handlers
  exact ⟨⟨handler, sources, hhandlers, howns.congr rfl rfl rfl rfl, hserves⟩,
    ⟨hs.tracked.interest, hnodup, hevents⟩⟩

/-- **One dispatched event** keeps the invariant, whatever the handler does. -/
theorem sound_dispatch (hs : Sound s) (hnew : fd ∉ s.events.map Prod.fst)
    (hrdhup : fd = s.timerFd → events.rdhup = false) (hmem : handler ∈ s.handlers)
    (hfd : handler.fd = some fd) (h : s.eventTrigger handler events a = some s') : Sound s' := by
  obtain ⟨special, sources, hhandlers, howns, hserves⟩ := hs.handlers
  rw [hhandlers, List.mem_cons] at hmem
  rcases hmem with rfl | hmem
  · rcases hserves with ⟨-, -, server, -, rfl⟩ | ⟨hstate, harmed, rfl⟩
    · cases hfd
      exact sound_server hs hhandlers howns hnew h
    · cases hfd
      exact sound_timer hs hhandlers howns hstate harmed hnew (hrdhup rfl) h
  · exact sound_source hs hhandlers howns hserves hmem hfd hnew h

/-- **One step keeps the invariant.**  A batch only has events of descriptors that have a handler,
    and the dispatch of one event takes no handler away that another one needs. -/
theorem sound_step {act : Act} (hs : Sound s) (h : s.step act = some s') : Sound s' := by
  cases act with
  | wait events =>
    simp only [step] at h
    split_ifs at h with hwait
    cases h
    obtain ⟨-, hnodup, hreported⟩ := hwait
    refine hs.setEvents hnodup fun p hp => ?_
    -- what epoll reports was asked for, and the timer is not asked whether it has hung up
    obtain ⟨mask, hmask, hrdhup, -⟩ := hreported p hp
    obtain ⟨hhandler, htimer⟩ := hs.tracked.interest p.1 mask hmask
    refine ⟨hhandler, fun heq => ?_⟩
    rw [← Bool.not_eq_true]
    intro hp
    rw [htimer heq] at hrdhup
    exact Bool.false_ne_true (hrdhup hp)
  | dispatch a =>
    simp only [step] at h
    cases hevents : s.events with
    | nil => simp [hevents] at h
    | cons p rest =>
      obtain ⟨fd, flags⟩ := p
      -- a batch has one event for a descriptor, so the handlers of the others are kept
      have hnodup := hs.tracked.nodup
      have hhandled := hs.tracked.events
      rw [hevents] at hnodup hhandled
      rw [List.map_cons, List.nodup_cons] at hnodup
      rw [List.forall_mem_cons] at hhandled
      have hrest := hs.setEvents hnodup.2 hhandled.2
      simp only [hevents] at h
      split at h
      · rename_i handler hfind
        exact sound_dispatch hrest hnodup.1 hhandled.1.2 (List.mem_of_find?_eq_some hfind)
          (by simpa using List.find?_some hfind) h
      · cases h
        exact hrest

/-! ### The number of the timer -/

section

variable (s : Producer)

/-- Registering does not change the number of the timer. -/
@[simp] theorem timerFd_epollRegister (c : Connection) (events : Events) :
    (s.epollRegister c events).timerFd = s.timerFd := by
  unfold epollRegister
  split <;> rfl

/-- Nor does unregistering. -/
@[simp] theorem timerFd_epollUnregister (c : Connection) :
    (s.epollUnregister c).timerFd = s.timerFd := by
  unfold epollUnregister
  split <;> rfl

/-- Nor does destroying a connection. -/
@[simp] theorem timerFd_destroy (c : Connection) : (s.destroy c).timerFd = s.timerFd := by
  unfold destroy
  split <;> rfl

/-- Nor does closing the socket of the server. -/
@[simp] theorem timerFd_closeServer : s.closeServer.timerFd = s.timerFd := by
  unfold closeServer
  split <;> rfl

/-- Nor does `OnDisconnect`. -/
@[simp] theorem timerFd_onDisconnect : s.onDisconnect.timerFd = s.timerFd := rfl

/-- Nor does a handler for the new socket. -/
@[simp] theorem timerFd_addServer : s.addServer.timerFd = s.timerFd :=
  timerFd_epollRegister s _ _

/-- Nor does stopping the timer. -/
@[simp] theorem timerFd_disarm : s.disarm.timerFd = s.timerFd := by
  unfold disarm
  dsimp only
  split <;> simp

/-- Nor does `OnConnect`. -/
@[simp] theorem timerFd_onConnect : s.onConnect.timerFd = s.timerFd := by
  unfold onConnect
  split <;> simp

end

/-- So no handler changes it, neither that of the socket nor that of the timer or of a source. -/
theorem timerFd_eventTrigger (h : s.eventTrigger handler events a = some s') :
    s'.timerFd = s.timerFd := by
  unfold eventTrigger at h
  split_ifs at h
  · cases hcallback : handler.callback <;> rw [hcallback] at h <;> cases h <;> simp
  · cases hcallback : handler.callback <;> rw [hcallback] at h
    · cases h
      rfl
    · obtain ⟨⟨t, ok⟩, hconnect, rfl⟩ := Option.map_eq_some_iff.mp h
      have htimer := (connect_frame hconnect).1
      cases ok <;> simp [htimer]
    · cases h
      rfl
  · cases h
    rfl

/-- The timer has one number in the whole run: it is opened by the constructor and closed by
    nobody. -/
theorem timerFd_step {act : Act} (h : s.step act = some s') : s'.timerFd = s.timerFd := by
  cases act with
  | wait events =>
    simp only [step] at h
    split_ifs at h
    cases h
    rfl
  | dispatch a =>
    simp only [step] at h
    split at h
    · cases h
    · split at h
      · have htimer := timerFd_eventTrigger h
        exact htimer
      · cases h
        rfl

/-! ### The beginning -/

/-- The constructor opens the socket of the server and the timer, and has no handlers yet. -/
theorem between_constructed {server timer : Nat} (hne : server ≠ timer) :
    Between (constructed server timer) := by
  have hlookup : ∀ {fd kind}, (constructed server timer).fds.lookup fd = some kind ↔
      (fd = timer ∧ .timer = kind) ∨ (fd ≠ timer ∧ fd = server ∧ .server = kind) := by
    intro fd kind
    rw [constructed, lookup_insert_eq_some, lookup_insert_eq_some, AList.lookup_empty]
    simp
  refine ⟨⟨hlookup.mpr (.inl ⟨rfl, rfl⟩), fun fd => ?_, fun c hc => absurd hc List.not_mem_nil,
    List.not_mem_nil⟩, ⟨fun fd events h => absurd h lookup_empty_ne_some, List.nodup_nil,
    fun p hp => absurd hp List.not_mem_nil⟩⟩
  rw [hlookup, constructed, Option.some.injEq]
  constructor
  · rintro (⟨-, hkind⟩ | ⟨-, rfl, -⟩)
    · cases hkind
    · rfl
  · rintro rfl
    exact .inr ⟨hne, rfl, rfl⟩

/-- A source is added under a number that is not in use, with its handler in front of those that are
    there. -/
theorem Between.registerSource (h : Between s) (hnew : s.fds.lookup fd = none) :
    Between (s.registerSource fd) := by
  have hne : ∀ {fd' kind}, s.fds.lookup fd' = some kind → fd' ≠ fd := by
    rintro fd' kind hlookup rfl
    rw [hnew] at hlookup
    cases hlookup
  have htimer := hne h.owns.timer
  refine ⟨⟨?_, fun fd' => ?_, fun c hc => ?_, h.owns.closed⟩,
    h.tracked.add rfl (fun heq => absurd heq.symm htimer) rfl rfl rfl rfl⟩
  · exact lookup_insert_eq_some.mpr (.inr ⟨htimer, h.owns.timer⟩)
  · refine Iff.trans lookup_insert_eq_some (Iff.trans ?_ (h.owns.server fd'))
    constructor
    · rintro (⟨-, hkind⟩ | ⟨-, hserver⟩)
      · cases hkind
      · exact hserver
    · exact fun hserver => .inr ⟨hne hserver, hserver⟩
  · rcases List.mem_cons.mp hc with rfl | hc
    · exact ⟨rfl, fd, rfl, lookup_insert_eq_some.mpr (.inl ⟨rfl, rfl⟩)⟩
    · obtain ⟨hcallback, fd', hfd', hsource⟩ := h.owns.sources c hc
      exact ⟨hcallback, fd', hfd', lookup_insert_eq_some.mpr (.inr ⟨hne hsource, hsource⟩)⟩

/-- The sources are registered, and nothing else changes: the socket, the timer and the state are as
    the constructor has left them. -/
theorem between_registerSources {sources : List Nat} (h : Between s) (hnodup : sources.Nodup)
    (hnew : ∀ fd ∈ sources, s.fds.lookup fd = none) :
    Between (sources.foldl registerSource s) ∧ (sources.foldl registerSource s).fd = s.fd ∧
      (sources.foldl registerSource s).armed = s.armed ∧
      (sources.foldl registerSource s).state = s.state ∧
      (sources.foldl registerSource s).timerFd = s.timerFd := by
  induction sources generalizing s with
  | nil => exact ⟨h, rfl, rfl, rfl, rfl⟩
  | cons fd sources ih =>
    rw [List.nodup_cons] at hnodup
    rw [List.forall_mem_cons] at hnew
    refine ih (h.registerSource hnew.1) hnodup.2 fun fd' hfd' => ?_
    have hne : fd' ≠ fd := by
      rintro rfl
      exact hnodup.1 hfd'
    exact (AList.lookup_insert_ne hne).trans (hnew.2 fd' hfd')

/-- **The collector starts in order**: all its descriptors are different, and each has its
    handler. -/
theorem sound_start {server timer : Nat} {sources : List Nat}
    (h : (server :: timer :: sources).Nodup) :
    Sound (start server timer sources) ∧ (start server timer sources).timerFd = timer := by
  simp only [List.nodup_cons, List.mem_cons, not_or] at h
  obtain ⟨⟨hne, hserver⟩, htimer, hnodup⟩ := h
  have hnew : ∀ fd ∈ sources, (constructed server timer).fds.lookup fd = none := by
    intro fd hfd
    have hfd_timer : fd ≠ timer := by
      rintro rfl
      exact htimer hfd
    have hfd_server : fd ≠ server := by
      rintro rfl
      exact hserver hfd
    rw [constructed, AList.lookup_insert_ne hfd_timer, AList.lookup_insert_ne hfd_server,
      AList.lookup_empty]
  obtain ⟨hbetween, hfd, harmed, hstate, htimerFd⟩ :=
    between_registerSources (between_constructed hne) hnodup hnew
  unfold start onConnect
  rw [if_neg fun heq => by rw [hstate] at heq; cases heq]
  exact ⟨hbetween.addServer hfd harmed, (timerFd_addServer _).trans htimerFd⟩

/-! ### The result -/

/-- How many handlers there are for a descriptor. -/
def count (s : Producer) : Option Nat → Nat
  | some fd => s.handlers.countP (·.fd = some fd)
  | none    => 0

/-- A descriptor that is not one of a source has no handler among those of the sources. -/
theorem Owns.countP_sources (h : Owns s sources) {kind : Kind} (hfd : s.fds.lookup fd = some kind)
    (hkind : kind ≠ .source) : sources.countP (·.fd = some fd) = 0 := by
  rw [List.countP_eq_zero]
  intro c hc heq
  obtain ⟨-, fd', hcfd, hsource⟩ := h.sources c hc
  rw [hcfd, decide_eq_true_eq, Option.some.injEq] at heq
  subst heq
  rw [hfd, Option.some.injEq] at hsource
  exact hkind hsource

/-- **Reconnecting to the server.**  After every run of `Produce` from the first `OnConnect` on, the
    state is `READY` exactly if there is one handler for the server socket, none for the timer, and
    the timer is disarmed; it is `DISCONNECTED` exactly if there is one handler for the timer, none
    for the server socket, and the timer is armed.  The timer is never closed, and no server socket
    is open but the one of the collector. -/
theorem collector_reconnect {server timer : Nat} {sources : List Nat}
    (hdistinct : (server :: timer :: sources).Nodup) {acts : List Act} {s : Producer}
    (h : exec step (start server timer sources) acts = some s) :
    (s.state = .READY ↔ s.count s.fd = 1 ∧ s.count (some timer) = 0 ∧ s.armed = false) ∧
      (s.state = .DISCONNECTED ↔ s.count (some timer) = 1 ∧ s.count s.fd = 0 ∧ s.armed = true) ∧
      timer ∉ s.closed ∧ s.fds.lookup timer = some .timer ∧
      ∀ fd, s.fds.lookup fd = some .server → s.fd = some fd := by
  obtain ⟨hstart, htimerFd⟩ := sound_start hdistinct
  obtain ⟨hs, htimer⟩ : Sound s ∧ s.timerFd = timer := by
    refine exec_invariant (P := fun s => Sound s ∧ s.timerFd = timer) ?_ ⟨hstart, htimerFd⟩ h
    rintro s act s' ⟨hs, htimer⟩ hstep
    exact ⟨sound_step hs hstep, (timerFd_step hstep).trans htimer⟩
  obtain ⟨handler, others, hhandlers, howns, hserves⟩ := hs.handlers
  subst htimer
  -- the handlers of the sources are neither for the socket nor for the timer
  have hothers := howns.countP_sources howns.timer (by decide)
  suffices hstates :
      (s.state = .READY ↔ s.count s.fd = 1 ∧ s.count (some s.timerFd) = 0 ∧ s.armed = false) ∧
      (s.state = .DISCONNECTED ↔
        s.count (some s.timerFd) = 1 ∧ s.count s.fd = 0 ∧ s.armed = true) from
    ⟨hstates.1, hstates.2, howns.closed, howns.timer, fun fd => (howns.server fd).mp⟩
  rcases hserves with ⟨hstate, harmed, fd, hfd, rfl⟩ | ⟨hstate, harmed, rfl⟩
  -- with a connection the first handler is that of the socket
  · have hne : s.timerFd ≠ fd := howns.ne_of_lookup howns.timer (by decide) hfd
    have hsocket : s.count s.fd = 1 := by
      rw [hfd, count, hhandlers, List.countP_cons_of_pos (by simp),
        howns.countP_sources ((howns.server fd).mpr hfd) (by decide)]
    have htimers : s.count (some s.timerFd) = 0 := by
      rw [count, hhandlers, List.countP_cons_of_neg (by simpa using hne.symm), hothers]
    simp [hstate, harmed, hsocket, htimers]
  -- without one it is that of the timer
  · have htimers : s.count (some s.timerFd) = 1 := by
      rw [count, hhandlers, List.countP_cons_of_pos (by simp), hothers]
    have hsocket : s.count s.fd = 0 := by
      cases hfd : s.fd with
      | none => rfl
      | some fd =>
        have hne : s.timerFd ≠ fd := howns.ne_of_lookup howns.timer (by decide) hfd
        rw [count, hhandlers, List.countP_cons_of_neg (by simpa using hne),
          howns.countP_sources ((howns.server fd).mpr hfd) (by decide)]
    simp [hstate, harmed, hsocket, htimers]

/-- A disconnect and two attempts, of which the first is refused and leaves its socket to the
    second. -/
theorem collector_reconnect_refused : ∃ s,
    exec step (start 5 6 [7, 8]) [.wait [(7, ⟨false, true⟩), (5, ⟨true, false⟩)],
      .dispatch ⟨none, true, true⟩, .dispatch ⟨none, true, true⟩, .wait [(6, ⟨false, true⟩)],
      .dispatch ⟨some 5, true, false⟩, .wait [(6, ⟨false, true⟩)],
      .dispatch ⟨none, true, true⟩] = some s ∧
    s.count (some 5) = 1 ∧ s.count (some 6) = 0 ∧ s.armed = false ∧ 6 ∉ s.closed := by
  obtain ⟨s, hs, hp⟩ := exists_of_exec_any
    (p := fun s : Producer => decide (s.state = .READY ∧ s.fd = some 5))
    (show (exec step (start 5 6 [7, 8]) [.wait [(7, ⟨false, true⟩), (5, ⟨true, false⟩)],
      .dispatch ⟨none, true, true⟩, .dispatch ⟨none, true, true⟩, .wait [(6, ⟨false, true⟩)],
      .dispatch ⟨some 5, true, false⟩, .wait [(6, ⟨false, true⟩)],
      .dispatch ⟨none, true, true⟩]).any _ = true by decide)
  obtain ⟨hstate, hfd⟩ := of_decide_eq_true hp
  obtain ⟨hready, -, hclosed, -, -⟩ := collector_reconnect (by decide) hs
  rw [hfd] at hready
  obtain ⟨hsocket, htimer, harmed⟩ := hready.mp hstate
  exact ⟨s, hs, hsocket, htimer, harmed, hclosed⟩

end Producer

end CPlayground.Relay.Collector
