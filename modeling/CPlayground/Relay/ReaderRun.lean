import CPlayground.Relay.Collector.Reconnect

namespace CPlayground.Relay

open CPlayground.Trace CPlayground.Table
open Collector (Events)

/-!
# `RemoteReader::Run`: the loop of the relay

The loop keeps a handler for each descriptor in a map: for the listening socket, for every
connection that it has accepted, and for the read end of the terminator's pipe.  A connection is
erased from the map, and thereby destroyed and closed, when its peer leaves or sends a record that
does not decrypt.  The handler of the terminator would end the loop, but only the other two kinds
are registered with epoll.

A new connection gets any number that is not in use, also one that an earlier event of the same
batch has set free.

* `ReaderRun.step` — `epoll_wait`, the dispatch of one event, and `terminator.trigger()`.
* `ReaderRun.Inv` — the handlers are those of the open descriptors, and every connection is
  registered.
* `ReaderRun.reader_loop` — every event finds its handler, every connection is closed once, and the
  loop does not end, whether the terminator is triggered or not.
-/

namespace ReaderRun

/-- What a descriptor is, and what the callbacks of its handler are.  The connections are numbered
    as they are accepted. -/
inductive Kind where
  | listener
  | peer (id : Nat)
  | terminator
  deriving DecidableEq

/-- `RemoteReader::State`. -/
inductive State where
  | READY
  | WAIT
  | QUIT
  deriving DecidableEq

end ReaderRun

open ReaderRun in
/-- The thread of `RemoteReader::Run`, with the open descriptors and the epoll instance. -/
structure ReaderRun where
  handlers : AList fun _ : Nat => Kind
  fds : AList fun _ : Nat => Kind
  interest : AList fun _ : Nat => Events
  events : List (Nat × Events)   -- what `epoll_wait` has returned and is not dispatched yet
  state : State                  -- `state_`
  triggered : Bool               -- there is a character in the terminator's pipe
  undefined : Bool               -- `handlers[fd]` was null
  accepted : Nat                 -- how many connections were accepted
  closed : List Nat              -- the connections that were closed

namespace ReaderRun

/-- How the calls of a callback go. -/
structure Input where
  accept : Option Nat   -- `accept4`
  register : Bool       -- `epollRegister` of the new connection
  decrypt : Bool        -- `Secure::Decrypt`
  subscribed : Bool     -- the filter

/-- A step of the thread, or of the one that destroys the reader: `epoll_wait` with a batch of
    events, the dispatch of one of them, and the trigger of the terminator. -/
inductive Act where
  | wait (events : List (Nat × Events))
  | dispatch (input : Input)
  | trigger

/-- The destructor of the connection `id` with the descriptor `fd`. -/
def destroy (s : ReaderRun) (fd id : Nat) : ReaderRun :=
  { s with fds := s.fds.erase fd, interest := s.interest.erase fd, closed := id :: s.closed }

/-- `handlers.erase(fd)` for a connection. -/
def erase (s : ReaderRun) (fd id : Nat) : ReaderRun :=
  { s with handlers := s.handlers.erase fd }.destroy fd id

/-- `handle_connection`.  `none` if the number of the new descriptor is in use. -/
def handleConnection (s : ReaderRun) (input : Input) : Option ReaderRun :=
  match input.accept with
  | none      => some s
  | some sock =>
    if (s.fds.lookup sock).isSome then none
    else
      let id := s.accepted
      let s := { s with fds := s.fds.insert sock (.peer id), accepted := id + 1 }
      if input.register then
        some { s with
          interest := s.interest.insert sock ⟨true, true⟩
          handlers := insertNew s.handlers sock (.peer id) }
      else some (s.destroy sock id)

/-- `handle_message`, apart from the data. -/
def handleMessage (s : ReaderRun) (fd id : Nat) (input : Input) : ReaderRun :=
  if ¬ input.decrypt then s.erase fd id
  else if ¬ input.subscribed then s
  else { s with state := .READY }

/-- `Connection::eventTrigger` with the callbacks of the handler. -/
def eventTrigger (s : ReaderRun) (fd : Nat) (kind : Kind) (flags : Events) (input : Input) :
    Option ReaderRun :=
  if flags.rdhup then
    let s := { s with interest := s.interest.erase fd }
    match kind with
    | .peer id                => some (s.erase fd id)
    | .listener | .terminator => some s
  else if flags.readable then
    match kind with
    | .listener   => s.handleConnection input
    | .peer id    => some (s.handleMessage fd id input)
    | .terminator => some { s with state := .QUIT }
  else some s

/-- An event that `epoll_wait` can return. -/
def Reported (s : ReaderRun) (p : Nat × Events) : Prop :=
  ∃ mask ∈ s.interest.lookup p.1, (p.2.rdhup → mask.rdhup) ∧ (p.2.readable → mask.readable)

instance (s : ReaderRun) (p : Nat × Events) : Decidable (Reported s p) :=
  inferInstanceAs (Decidable (∃ mask ∈ s.interest.lookup p.1, _ ∧ _))

/-- One step.  A batch has only events of descriptors that are registered, each at most once. -/
def step (s : ReaderRun) : Act → Option ReaderRun
  | .wait events =>
    if s.state ≠ .QUIT ∧ s.events = [] ∧ (events.map Prod.fst).Nodup ∧ ∀ p ∈ events, Reported s p
    then some { s with events := events }
    else none
  | .dispatch input =>
    match s.events with
    | []                  => none
    | (fd, flags) :: rest =>
      let s := { s with events := rest }
      match s.handlers.lookup fd with
      | some kind => s.eventTrigger fd kind flags input
      | none      => some { s with undefined := true }
  | .trigger => some { s with triggered := true }

/-- The thread when it enters its loop. -/
def start (listener terminator : Nat) : ReaderRun where
  handlers := (AList.insert listener .listener ∅).insert terminator .terminator
  fds := (AList.insert listener .listener ∅).insert terminator .terminator
  interest := AList.insert listener ⟨false, true⟩ ∅
  events := []
  state := .WAIT
  triggered := false
  undefined := false
  accepted := 0
  closed := []

/-! ### The invariant -/

variable {s s' : ReaderRun} {fd id : Nat} {flags : Events} {kind : Kind} {input : Input}

/-- A descriptor that is not the terminator's; only a connection has `EPOLLRDHUP`. -/
def Handled (s : ReaderRun) (fd : Nat) (flags : Events) : Prop :=
  ∃ kind, s.fds.lookup fd = some kind ∧ kind ≠ .terminator ∧
    (flags.rdhup → ∃ id, kind = .peer id)

/-- The connections by their numbers: each is open under one descriptor, or was closed once. -/
structure Numbered (s : ReaderRun) : Prop where
  once : s.closed.Nodup
  isOpen : ∀ fd id, s.fds.lookup fd = some (.peer id) → id < s.accepted ∧ id ∉ s.closed
  inj : ∀ fd fd' id, s.fds.lookup fd = some (.peer id) → s.fds.lookup fd' = some (.peer id) →
    fd = fd'
  all : ∀ id < s.accepted, id ∈ s.closed ∨ ∃ fd, s.fds.lookup fd = some (.peer id)
  less : ∀ id ∈ s.closed, id < s.accepted

/-- The handlers and the epoll instance: there is a handler for every open descriptor, every
    connection is registered, and what is registered has a handler for its events. -/
structure Tables (s : ReaderRun) : Prop where
  same : ∀ fd, s.handlers.lookup fd = s.fds.lookup fd
  watched : ∀ fd id, s.fds.lookup fd = some (.peer id) → s.interest.lookup fd = some ⟨true, true⟩
  interest : ∀ fd mask, s.interest.lookup fd = some mask → Handled s fd mask

/-- What holds between two dispatched events; the rest of the batch still has its handlers, also
    when an event in front of it has closed a connection. -/
structure Inv (s : ReaderRun) : Prop where
  tables : Tables s
  numbered : Numbered s
  nodup : (s.events.map Prod.fst).Nodup
  events : ∀ p ∈ s.events, Handled s p.1 p.2
  state : s.state ≠ .QUIT
  defined : s.undefined = false

/-- At the start there are the terminator and the listening socket. -/
theorem lookup_start {listener terminator : Nat} {kind : Kind}
    (h : (start listener terminator).fds.lookup fd = some kind) :
    (fd = terminator ∧ kind = .terminator) ∨
      (fd ≠ terminator ∧ fd = listener ∧ kind = .listener) := by
  rcases lookup_insert_eq_some.mp h with ⟨rfl, rfl⟩ | ⟨hne, h⟩
  · exact .inl ⟨rfl, rfl⟩
  · rcases lookup_insert_eq_some.mp h with ⟨rfl, rfl⟩ | ⟨-, h⟩
    · exact .inr ⟨hne, rfl, rfl⟩
    · exact absurd h lookup_empty_ne_some

/-- Both of them have their handlers. -/
theorem inv_start {listener terminator : Nat} (hne : listener ≠ terminator) :
    Inv (start listener terminator) := by
  have hpeer : ∀ fd id, (start listener terminator).fds.lookup fd ≠ some (.peer id) := by
    intro fd id h
    rcases lookup_start h with ⟨-, ⟨⟩⟩ | ⟨-, -, ⟨⟩⟩
  refine ⟨⟨fun _ => rfl, fun fd id h => absurd h (hpeer fd id), ?_⟩,
    ⟨List.nodup_nil, fun fd id h => absurd h (hpeer fd id), fun fd _ id h => absurd h (hpeer fd id),
      nofun, nofun⟩, List.nodup_nil, nofun, nofun, rfl⟩
  intro fd mask hmask
  rcases lookup_insert_eq_some.mp hmask with ⟨rfl, rfl⟩ | ⟨-, h⟩
  · refine ⟨.listener, ?_, nofun, nofun⟩
    exact lookup_insert_eq_some.mpr (.inr ⟨hne, lookup_insert_eq_some.mpr (.inl ⟨rfl, rfl⟩)⟩)
  · exact absurd h lookup_empty_ne_some

/-! ### The steps -/

/-- A descriptor that stays open keeps its handler. -/
theorem Handled.of_lookup {fd : Nat} (h : Handled s fd flags)
    (hlookup : ∀ kind, s.fds.lookup fd = some kind → s'.fds.lookup fd = some kind) :
    Handled s' fd flags := by
  obtain ⟨kind, hkind, hrest⟩ := h
  exact ⟨kind, hlookup kind hkind, hrest⟩

/-- A step that keeps the descriptors, their handlers and what is registered keeps the invariant, if
    the events that are left have handlers. -/
theorem Inv.of_tables (h : Inv s) (hfds : s'.fds = s.fds) (hhandlers : s'.handlers = s.handlers)
    (hinterest : s'.interest = s.interest) (haccepted : s'.accepted = s.accepted)
    (hclosed : s'.closed = s.closed) (hundefined : s'.undefined = s.undefined)
    (hstate : s'.state ≠ .QUIT) (hnodup : (s'.events.map Prod.fst).Nodup)
    (hevents : ∀ p ∈ s'.events, Handled s p.1 p.2) : Inv s' := by
  -- the handler of an event is looked up in the descriptors, which are the same
  have hhandled : ∀ fd flags, Handled s fd flags → Handled s' fd flags := fun fd flags hh =>
    hh.of_lookup fun kind hkind => hfds ▸ hkind
  refine ⟨⟨?_, ?_, ?_⟩, ⟨?_, ?_, ?_, ?_, ?_⟩, hnodup,
    fun p hp => hhandled _ _ (hevents p hp), hstate, hundefined.trans h.defined⟩
  · rw [hhandlers, hfds]
    exact h.tables.same
  · rw [hinterest, hfds]
    exact h.tables.watched
  · rw [hinterest]
    exact fun fd mask hmask => hhandled _ _ (h.tables.interest fd mask hmask)
  · rw [hclosed]
    exact h.numbered.once
  · rw [hfds, haccepted, hclosed]
    exact h.numbered.isOpen
  · rw [hfds]
    exact h.numbered.inj
  · rw [hfds, haccepted, hclosed]
    exact h.numbered.all
  · rw [hclosed, haccepted]
    exact h.numbered.less

/-- A connection leaves the tables and is closed, for the first time; the others are open or closed
    as before. -/
theorem Numbered.close (h : Numbered s) (hopen : s.fds.lookup fd = some (.peer id))
    (hfds : s'.fds = s.fds.erase fd) (hclosed : s'.closed = id :: s.closed)
    (haccepted : s'.accepted = s.accepted) : Numbered s' := by
  obtain ⟨hless, hnew⟩ := h.isOpen fd id hopen
  refine ⟨?_, fun fd' id' hfd' => ?_, fun fd₁ fd₂ id' h₁ h₂ => ?_, fun id' hid' => ?_, ?_⟩
  -- it is closed for the first time
  · rw [hclosed]
    exact List.nodup_cons.mpr ⟨hnew, h.once⟩
  · rw [hfds] at hfd'
    obtain ⟨hne, hlookup⟩ := lookup_erase_eq_some.mp hfd'
    obtain ⟨hless', hnew'⟩ := h.isOpen fd' id' hlookup
    rw [haccepted, hclosed, List.mem_cons, not_or]
    refine ⟨hless', ?_, hnew'⟩
    -- another descriptor does not have the same connection
    rintro rfl
    exact hne (h.inj fd' fd id' hlookup hopen)
  · rw [hfds] at h₁ h₂
    exact h.inj fd₁ fd₂ id' (lookup_erase_eq_some.mp h₁).2 (lookup_erase_eq_some.mp h₂).2
  · rw [haccepted] at hid'
    rw [hclosed, hfds]
    rcases h.all id' hid' with hmem | ⟨fd', hfd'⟩
    · exact .inl (List.mem_cons_of_mem _ hmem)
    -- the connections that are neither closed nor open: there is none but this one, which is now
    -- closed
    · by_cases heq : fd' = fd
      · subst heq
        rw [hopen] at hfd'
        cases hfd'
        exact .inl List.mem_cons_self
      · exact .inr ⟨fd', lookup_erase_eq_some.mpr ⟨heq, hfd'⟩⟩
  · rw [hclosed, haccepted]
    exact List.forall_mem_cons.mpr ⟨hless, h.less⟩

/-- `handlers.erase(fd)`, after which nothing knows the connection; the destructor closes it. -/
theorem inv_erase (h : Inv s) (hevents : fd ∉ s.events.map Prod.fst)
    (hopen : s.fds.lookup fd = some (.peer id)) (interest : AList fun _ : Nat => Events)
    (hinterest : ∀ fd' mask, interest.lookup fd' = some mask → s.interest.lookup fd' = some mask)
    (hkept : ∀ fd', fd' ≠ fd → interest.lookup fd' = s.interest.lookup fd') :
    Inv ({ s with interest := interest }.erase fd id) := by
  have hlookup : ∀ fd' kind, fd' ≠ fd → s.fds.lookup fd' = some kind →
      (s.fds.erase fd).lookup fd' = some kind :=
    fun fd' kind hne hkind => lookup_erase_eq_some.mpr ⟨hne, hkind⟩
  refine ⟨⟨fun fd' => ?_, fun fd' id' hfd' => ?_, fun fd' mask hmask => ?_⟩,
    h.numbered.close hopen rfl rfl rfl, h.nodup, fun p hp => ?_, h.state, h.defined⟩
  · by_cases hne : fd' = fd
    · subst hne
      exact (AList.lookup_erase fd' s.handlers).trans (AList.lookup_erase fd' s.fds).symm
    · exact (AList.lookup_erase_ne hne).trans
        ((h.tables.same fd').trans (AList.lookup_erase_ne hne).symm)
  · obtain ⟨hne, hfd'⟩ := lookup_erase_eq_some.mp hfd'
    exact lookup_erase_eq_some.mpr ⟨hne, (hkept fd' hne).trans (h.tables.watched fd' id' hfd')⟩
  · obtain ⟨hne, hmask⟩ := lookup_erase_eq_some.mp hmask
    exact (h.tables.interest fd' mask (hinterest fd' mask hmask)).of_lookup fun kind =>
      hlookup fd' kind hne
  · have hne : p.1 ≠ fd := by
      rintro rfl
      exact hevents (List.mem_map_of_mem hp)
    exact (h.events p hp).of_lookup fun kind => hlookup p.1 kind hne

/-- A new connection has a number of its own, larger than all before, and a descriptor that was
    free. -/
theorem Numbered.accept {sock : Nat} (h : Numbered s) (hfree : s.fds.lookup sock = none)
    (hfds : s'.fds = s.fds.insert sock (.peer s.accepted)) (hclosed : s'.closed = s.closed)
    (haccepted : s'.accepted = s.accepted + 1) : Numbered s' := by
  -- its number has not been given out yet
  have hnew : ∀ fd', s.fds.lookup fd' ≠ some (.peer s.accepted) := fun fd' hfd' =>
    Nat.lt_irrefl _ (h.isOpen fd' _ hfd').1
  refine ⟨hclosed ▸ h.once, fun fd' id' hfd' => ?_, fun fd₁ fd₂ id' h₁ h₂ => ?_,
    fun id' hid' => ?_, fun id' hid' => ?_⟩
  · rw [hfds] at hfd'
    rw [haccepted, hclosed]
    rcases lookup_insert_eq_some.mp hfd' with ⟨rfl, heq⟩ | ⟨-, hfd'⟩
    · cases heq
      exact ⟨Nat.lt_succ_self _, fun hmem => Nat.lt_irrefl _ (h.less _ hmem)⟩
    · obtain ⟨hless, hopen⟩ := h.isOpen fd' id' hfd'
      exact ⟨Nat.lt_succ_of_lt hless, hopen⟩
  · rw [hfds] at h₁ h₂
    rcases lookup_insert_eq_some.mp h₁ with ⟨rfl, heq⟩ | ⟨-, h₁'⟩
    · cases heq
      rcases lookup_insert_eq_some.mp h₂ with ⟨rfl, -⟩ | ⟨-, h₂'⟩
      · rfl
      · exact absurd h₂' (hnew fd₂)
    · rcases lookup_insert_eq_some.mp h₂ with ⟨rfl, heq⟩ | ⟨-, h₂'⟩
      · cases heq
        exact absurd h₁' (hnew fd₁)
      · exact h.inj fd₁ fd₂ id' h₁' h₂'
  · rw [haccepted] at hid'
    rw [hclosed, hfds]
    rcases Nat.lt_succ_iff_lt_or_eq.mp hid' with hless | rfl
    · rcases h.all id' hless with hmem | ⟨fd', hfd'⟩
      · exact .inl hmem
      -- a connection that was open has another descriptor, as this one was free
      · refine .inr ⟨fd', lookup_insert_eq_some.mpr (.inr ⟨?_, hfd'⟩)⟩
        rintro rfl
        rw [hfree] at hfd'
        cases hfd'
    · exact .inr ⟨sock, lookup_insert_eq_some.mpr (.inl ⟨rfl, rfl⟩)⟩
  · rw [hclosed] at hid'
    rw [haccepted]
    exact Nat.lt_succ_of_lt (h.less id' hid')

/-- A new connection with its handler, which is registered for data and for the hangup. -/
theorem inv_register {sock : Nat} (h : Inv s) (hfree : s.fds.lookup sock = none) :
    Inv { s with
      fds := s.fds.insert sock (.peer s.accepted)
      accepted := s.accepted + 1
      interest := s.interest.insert sock ⟨true, true⟩
      handlers := insertNew s.handlers sock (.peer s.accepted) } := by
  have hlookup : ∀ fd' kind, s.fds.lookup fd' = some kind →
      (s.fds.insert sock (.peer s.accepted)).lookup fd' = some kind := by
    intro fd' kind hkind
    refine lookup_insert_eq_some.mpr (.inr ⟨?_, hkind⟩)
    rintro rfl
    rw [hfree] at hkind
    cases hkind
  refine ⟨⟨fun fd' => ?_, fun fd' id' hfd' => ?_, fun fd' mask hmask => ?_⟩,
    h.numbered.accept hfree rfl rfl rfl, h.nodup,
    fun p hp => (h.events p hp).of_lookup (hlookup p.1), h.state, h.defined⟩
  · -- the number is not in the map either
    have hnew : sock ∉ s.handlers := not_mem_of_lookup ((h.tables.same sock).trans hfree)
    simp only [insertNew, if_neg hnew]
    by_cases hne : fd' = sock
    · subst hne
      exact (AList.lookup_insert s.handlers).trans (AList.lookup_insert s.fds).symm
    · exact (AList.lookup_insert_ne hne).trans
        ((h.tables.same fd').trans (AList.lookup_insert_ne hne).symm)
  · rcases lookup_insert_eq_some.mp hfd' with ⟨rfl, -⟩ | ⟨hne, hfd'⟩
    · exact AList.lookup_insert ..
    · exact (AList.lookup_insert_ne hne).trans (h.tables.watched fd' id' hfd')
  · rcases lookup_insert_eq_some.mp hmask with ⟨rfl, rfl⟩ | ⟨-, hmask⟩
    · exact ⟨.peer s.accepted, AList.lookup_insert .., nofun, fun _ => ⟨_, rfl⟩⟩
    · exact (h.tables.interest fd' mask hmask).of_lookup (hlookup fd')

/-- A new connection that could not be registered is closed at once, as nothing else holds it. -/
theorem inv_refuse {sock : Nat} (h : Inv s) (hfree : s.fds.lookup sock = none) :
    Inv ({ s with fds := s.fds.insert sock (.peer s.accepted), accepted := s.accepted + 1 }.destroy
      sock s.accepted) := by
  have hfds : ∀ fd', ((s.fds.insert sock (.peer s.accepted)).erase sock).lookup fd'
      = s.fds.lookup fd' := by
    intro fd'
    by_cases hne : fd' = sock
    · subst hne
      rw [AList.lookup_erase, hfree]
    · rw [AList.lookup_erase_ne hne, AList.lookup_insert_ne hne]
  have hlookup : ∀ fd' kind, s.fds.lookup fd' = some kind →
      ((s.fds.insert sock (.peer s.accepted)).erase sock).lookup fd' = some kind :=
    fun fd' kind hkind => (hfds fd').trans hkind
  have haccept : Numbered
      { s with fds := s.fds.insert sock (.peer s.accepted), accepted := s.accepted + 1 } :=
    h.numbered.accept hfree rfl rfl rfl
  refine ⟨⟨fun fd' => (h.tables.same fd').trans (hfds fd').symm, fun fd' id' hfd' => ?_,
    fun fd' mask hmask => ?_⟩, haccept.close (AList.lookup_insert ..) rfl rfl rfl, h.nodup,
    fun p hp => (h.events p hp).of_lookup (hlookup p.1), h.state, h.defined⟩
  · have hne := (lookup_erase_eq_some.mp hfd').1
    exact lookup_erase_eq_some.mpr ⟨hne, h.tables.watched fd' id' ((hfds fd').symm.trans hfd')⟩
  · have hmask := (lookup_erase_eq_some.mp hmask).2
    exact (h.tables.interest fd' mask hmask).of_lookup (hlookup fd')

/-- `handle_connection`: nothing is accepted, or the connection is registered, or it is closed
    again. -/
theorem inv_handleConnection (h : Inv s) (hst : s.handleConnection input = some s') : Inv s' := by
  unfold handleConnection at hst
  split at hst
  · cases hst
    exact h
  · rename_i sock _
    rw [Option.ite_none_left_eq_some, Bool.not_eq_true, Option.isSome_eq_false_iff,
      Option.isNone_iff_eq_none] at hst
    obtain ⟨hfree, hst⟩ := hst
    dsimp only at hst
    split at hst
    · cases hst
      exact inv_register h hfree
    · cases hst
      exact inv_refuse h hfree

/-- `handle_message`. -/
theorem inv_handleMessage (h : Inv s) (hevents : fd ∉ s.events.map Prod.fst)
    (hopen : s.fds.lookup fd = some (.peer id)) : Inv (s.handleMessage fd id input) := by
  unfold handleMessage
  split
  · exact inv_erase h hevents hopen s.interest (fun _ _ hmask => hmask) fun _ _ => rfl
  · split
    · exact h
    · exact h.of_tables rfl rfl rfl rfl rfl rfl nofun h.nodup h.events

/-- An event is dispatched to the handler of its descriptor; it may only close this connection, or
    open a new one. -/
theorem inv_eventTrigger (h : Inv s) (hevents : fd ∉ s.events.map Prod.fst)
    (hlookup : s.fds.lookup fd = some kind) (hkind : kind ≠ .terminator)
    (hrdhup : flags.rdhup → ∃ id, kind = .peer id)
    (hst : s.eventTrigger fd kind flags input = some s') : Inv s' := by
  unfold eventTrigger at hst
  by_cases hflag : flags.rdhup
  · -- the peer has left
    obtain ⟨id, rfl⟩ := hrdhup hflag
    rw [if_pos hflag] at hst
    cases hst
    exact inv_erase h hevents hlookup _ (fun fd' mask hmask => (lookup_erase_eq_some.mp hmask).2)
      fun fd' hne => AList.lookup_erase_ne hne
  · rw [if_neg hflag] at hst
    by_cases hreadable : flags.readable
    · rw [if_pos hreadable] at hst
      cases kind with
      | listener => exact inv_handleConnection h hst
      | peer id =>
        cases hst
        exact inv_handleMessage h hevents hlookup
      | terminator => exact absurd rfl hkind
    · rw [if_neg hreadable] at hst
      cases hst
      exact h

/-- **One step keeps the invariant.**  A dispatched event may close its own connection or open a new
    one, maybe under a number that was set free in the same batch. -/
theorem inv_step {a : Act} (h : Inv s) (hst : step s a = some s') : Inv s' := by
  cases a with
  | wait events =>
    simp only [step, Option.ite_none_right_eq_some, Option.some.injEq] at hst
    obtain ⟨⟨hstate, -, hnodup, hreported⟩, rfl⟩ := hst
    refine h.of_tables rfl rfl rfl rfl rfl rfl hstate hnodup fun p hp => ?_
    -- epoll reports only what was asked for
    obtain ⟨mask, hmask, hrdhup, -⟩ := hreported p hp
    obtain ⟨kind, hlookup, hkind, hpeer⟩ := h.tables.interest p.1 mask hmask
    exact ⟨kind, hlookup, hkind, fun hflag => hpeer (hrdhup hflag)⟩
  | dispatch input =>
    simp only [step] at hst
    split at hst
    · cases hst
    · rename_i fd flags rest hevents
      -- a descriptor is in the batch once, so the rest of it is about others
      have hnodup := h.nodup
      have hall := h.events
      rw [hevents] at hnodup hall
      rw [List.map_cons, List.nodup_cons] at hnodup
      rw [List.forall_mem_cons] at hall
      obtain ⟨⟨kind, hlookup, hkind, hrdhup⟩, hrest⟩ := hall
      have hinv : Inv { s with events := rest } :=
        h.of_tables rfl rfl rfl rfl rfl rfl h.state hnodup.2 hrest
      rw [(h.tables.same fd).trans hlookup] at hst
      exact inv_eventTrigger hinv hnodup.1 hlookup hkind hrdhup hst
  | trigger =>
    cases hst
    exact h.of_tables rfl rfl rfl rfl rfl rfl h.state h.nodup h.events

/-- **The loop of the relay.**  In every run, every dispatched event finds a handler, and every
    connection that was accepted is either open, with its handler, and registered, or it was closed
    exactly once.  `state_` never becomes `QUIT`, so that the loop goes on, also when the terminator
    is triggered. -/
theorem reader_loop (listener terminator : Nat) (hne : listener ≠ terminator) (acts : List Act)
    (s : ReaderRun) (hrun : exec step (start listener terminator) acts = some s) :
    s.undefined = false ∧ s.state ≠ .QUIT ∧
      ∀ id < s.accepted,
        (s.closed.count id = 1 ∧ ∀ fd, s.fds.lookup fd ≠ some (.peer id)) ∨
        (s.closed.count id = 0 ∧ ∃ fd, s.fds.lookup fd = some (.peer id) ∧
          s.handlers.lookup fd = some (.peer id) ∧ s.interest.lookup fd = some ⟨true, true⟩) := by
  have hinv : Inv s := exec_invariant (fun _ _ _ h hst => inv_step h hst) (inv_start hne) hrun
  refine ⟨hinv.defined, hinv.state, fun id hid => ?_⟩
  by_cases hmem : id ∈ s.closed
  · refine .inl ⟨List.count_eq_one_of_mem hinv.numbered.once hmem, fun fd hfd => ?_⟩
    exact (hinv.numbered.isOpen fd id hfd).2 hmem
  · rcases hinv.numbered.all id hid with hclosed | ⟨fd, hfd⟩
    · exact absurd hclosed hmem
    · exact .inr ⟨List.count_eq_zero.mpr hmem, fd, hfd, (hinv.tables.same fd).trans hfd,
        hinv.tables.watched fd id hfd⟩

/-- Two connections are accepted; in one batch the first one is kicked out and a third one gets its
    descriptor.  The terminator was triggered at the beginning. -/
def reused : List Act :=
  [.trigger, .wait [(3, ⟨false, true⟩)], .dispatch ⟨some 5, true, true, true⟩,
   .wait [(3, ⟨false, true⟩)], .dispatch ⟨some 6, true, true, true⟩,
   .wait [(5, ⟨false, true⟩), (3, ⟨false, true⟩), (6, ⟨false, true⟩)],
   .dispatch ⟨none, true, false, true⟩, .dispatch ⟨some 5, true, true, true⟩,
   .dispatch ⟨none, true, true, true⟩]

/-- A peer leaves, and its number is given to the next one in the same batch. -/
theorem reader_loop_reused : ∃ s, exec step (start 3 4) reused = some s ∧ s.triggered = true ∧
    s.state ≠ .QUIT ∧ s.closed = [0] ∧ s.fds.lookup 5 = some (.peer 2) ∧ s.accepted = 3 := by
  obtain ⟨s, hrun, htest⟩ := exists_of_exec_any
    (show (exec step (start 3 4) reused).any (fun s => s.triggered = true ∧ s.closed = [0] ∧
      s.fds.lookup 5 = some (.peer 2) ∧ s.accepted = 3) = true by decide +kernel)
  obtain ⟨htriggered, hclosed, hfd, haccepted⟩ := of_decide_eq_true htest
  exact ⟨s, hrun, htriggered, (reader_loop 3 4 (by decide) reused s hrun).2.1, hclosed, hfd,
    haccepted⟩

end ReaderRun

end CPlayground.Relay
