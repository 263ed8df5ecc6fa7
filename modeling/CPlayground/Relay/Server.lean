import CPlayground.Relay.Collector.Reconnect
import Mathlib.Logic.Function.Basic

namespace CPlayground.Relay

open CPlayground.Trace
open Collector (Events)

/-!
# `Server`: an edge-triggered server that keeps its connections for ever

The thread of `Server::run` accepts connections and logs what they send.  A connection is a
`shared_ptr` in `connections_`, and its `on_close` callback takes it out of that set.  The callback
captures the pointer by value, so that the object holds itself: its destructor, which closes the
descriptor, does not run.

The connections are registered with `EPOLLET`.  epoll reports such a descriptor once for each
arrival of data, and `on_recv` makes one `recv` of at most 1024 bytes for a report.

The terminator is registered as well, but the `break` at its event leaves the loop over the batch
and not the loop of the thread.

* `Server.step` — the thread, the peers, and the destructor of the server that triggers the
  terminator.
* `Sock.Inv` — the bytes of one socket, and a budget: a `recv` for each arrival.
* `Server.never_closed` — no accepted descriptor is closed, and the terminator does not end the
  thread.
* `Server.reads_per_arrival` — what is logged is in order, and at most 1024 bytes for each arrival.
-/

deriving instance DecidableEq for Collector.Events

/-- An accepted socket.  The last four fields only record what has happened to it. -/
structure Sock where
  fd : Nat
  isOpen : Bool := true
  unread : List UInt8 := []
  edge : Bool := false       -- on the ready list of epoll
  hup : Bool := false        -- the peer has left
  sent : List UInt8 := []
  arrivals : Nat := 0
  received : List UInt8 := []
  reads : Nat := 0

namespace Sock

variable {c : Sock} {pending pending' : Bool} {bytes : List UInt8}

/-- The peer sends. -/
def arrive (c : Sock) (bytes : List UInt8) : Sock :=
  { c with
    unread := c.unread ++ bytes
    edge := true
    sent := c.sent ++ bytes
    arrivals := c.arrivals + 1 }

/-- The peer shuts its end down. -/
def leave (c : Sock) : Sock := { c with hup := true, edge := true }

/-- What epoll reports.  The end of the stream can be read, too. -/
def flags (c : Sock) : Events := ⟨c.hup, c.hup || !c.unread.isEmpty⟩

/-- The socket was reported. -/
def reported (c : Sock) : Sock := { c with edge := false }

/-- `recv(fd,buf,sizeof(buf),0)`. -/
def recv (c : Sock) : Sock :=
  { c with
    unread := c.unread.drop 1024
    received := c.received ++ c.unread.take 1024
    reads := c.reads + 1 }

/-- The bytes of one socket.  `pending` says that a report that leads to a `recv` is not dispatched
    yet; a `recv`, an edge that epoll has to report, and a pending report all have an arrival of
    their own. -/
structure Inv (c : Sock) (pending : Bool) : Prop where
  data : c.received ++ c.unread = c.sent
  size : c.received.length ≤ 1024 * c.reads
  budget : c.reads + (c.edge && !c.hup).toNat + pending.toNat ≤ c.arrivals
  unread : pending = true → c.unread ≠ []

/-- A socket that nothing was sent to. -/
theorem inv_new (fd : Nat) : Inv { fd := fd } false :=
  ⟨rfl, Nat.le_refl _, Nat.le_refl _, nofun⟩

/-- Data arrives: it is unread, and a report is due. -/
theorem Inv.arrive (h : Inv c pending) : Inv (c.arrive bytes) pending := by
  obtain ⟨hdata, hsize, hbudget, hunread⟩ := h
  refine ⟨?_, hsize, ?_, fun hp => ?_⟩
  · simp only [Sock.arrive, ← List.append_assoc, hdata]
  · have hcredit := Bool.toNat_le (true && !c.hup)
    simp only [Sock.arrive]
    omega
  · exact List.append_ne_nil_of_left_ne_nil (hunread hp) bytes

/-- The peer closes its end. -/
theorem Inv.leave (h : Inv c pending) : Inv c.leave pending := by
  obtain ⟨hdata, hsize, hbudget, hunread⟩ := h
  refine ⟨hdata, hsize, ?_, hunread⟩
  simp only [Sock.leave, Bool.not_true, Bool.and_false, Bool.toNat_false]
  omega

/-- A report takes the edge; one that leads to a `recv` is the report of a connection with data. -/
theorem Inv.reported (h : Inv c false) (hedge : c.edge = true)
    (hpending : pending = true → c.hup = false ∧ c.unread ≠ []) : Inv c.reported pending := by
  obtain ⟨hdata, hsize, hbudget, -⟩ := h
  refine ⟨hdata, hsize, ?_, fun hp => (hpending hp).2⟩
  simp only [Sock.reported, Bool.false_and, Bool.toNat_false]
  cases pending with
  | false => exact Nat.le_trans (Nat.add_le_add_right (Nat.le_add_right _ _) _) hbudget
  | true =>
    rw [hedge, (hpending rfl).1] at hbudget
    exact hbudget

/-- The event is taken from the batch. -/
theorem Inv.of_pending (h : Inv c pending) (hle : pending' = true → pending = true) :
    Inv c pending' := by
  obtain ⟨hdata, hsize, hbudget, hunread⟩ := h
  refine ⟨hdata, hsize, ?_, fun hp => hunread (hle hp)⟩
  cases pending' with
  | false => exact Nat.le_trans (Nat.le_add_right _ _) hbudget
  | true => rwa [hle rfl] at hbudget

/-- **A `recv`** takes at most 1024 bytes, on the budget of one arrival. -/
theorem Inv.recv (h : Inv c true) : Inv c.recv false := by
  obtain ⟨hdata, hsize, hbudget, -⟩ := h
  refine ⟨?_, ?_, ?_, nofun⟩
  · simp only [Sock.recv, List.append_assoc, List.take_append_drop, hdata]
  · have htake := List.length_take_le 1024 c.unread
    simp only [Sock.recv, List.length_append]
    omega
  · simp only [Sock.recv, Bool.toNat_true, Bool.toNat_false] at hbudget ⊢
    omega

end Sock

namespace Server

/-- An element of `connections_`.  The connections are numbered as they are accepted. -/
inductive Handler where
  | server
  | connection (id : Nat)
  deriving DecidableEq

end Server

open Server in
/-- `Server`, with the epoll instance and the sockets it has accepted. -/
structure Server where
  listener : Nat                 -- the descriptor of `server_handler_`
  terminator : Nat               -- `terminator_.observeFd()`
  socks : Nat → Sock
  accepted : Nat
  connections : List Handler     -- `connections_`, in the order in which the loop meets them
  newConnection : Option Nat     -- `new_connection_`
  captured : List Nat            -- the objects whose own `on_close` holds a pointer to them
  interest : List Handler        -- what is registered with epoll, apart from the terminator
  events : List (Nat × Events)
  triggered : Bool
  running : Bool                 -- the thread has not returned from `run`
  noData : Bool                  -- a `recv` has failed for lack of data

namespace Server

/-- How the calls of a callback go. -/
structure Input where
  accept : Option Nat   -- `accept4`
  register : Bool       -- `epollRegister` of the new connection

/-- A step of the thread, of a peer, or of `~Server`: `epoll_wait` with a batch or with an error,
    the dispatch of one event, data that arrives, a peer that leaves, and the trigger of the
    terminator. -/
inductive Act where
  | wait (events : List (Nat × Events))
  | waitFails
  | dispatch (input : Input)
  | arrive (id : Nat) (bytes : List UInt8)
  | leave (id : Nat)
  | trigger

/-- The calls that end the thread when they fail do not. -/
def Act.Succeeds : Act → Prop
  | .waitFails      => False
  | .dispatch input => input.register = true
  | _               => True

instance : DecidablePred Act.Succeeds := fun a =>
  match a with
  | .waitFails      => inferInstanceAs (Decidable False)
  | .dispatch input => inferInstanceAs (Decidable (input.register = true))
  | .wait _ | .arrive .. | .leave _ | .trigger => inferInstanceAs (Decidable True)

/-- `handler->fd()`. -/
def fdOf (s : Server) : Handler → Nat
  | .server        => s.listener
  | .connection id => (s.socks id).fd

/-- A pointer to the connection is gone.  If it was the last one the connection is destroyed. -/
def release (s : Server) (id : Nat) : Server :=
  if .connection id ∈ s.connections ∨ s.newConnection = some id ∨ id ∈ s.captured then s
  else { s with
    socks := Function.update s.socks id { s.socks id with isOpen := false }
    interest := s.interest.erase (.connection id) }

/-- A number for a new descriptor. -/
def Free (s : Server) (fd : Nat) : Prop :=
  fd ≠ s.listener ∧ fd ≠ s.terminator ∧
    ∀ id < s.accepted, (s.socks id).isOpen = true → (s.socks id).fd ≠ fd

instance (s : Server) (fd : Nat) : Decidable (Free s fd) :=
  inferInstanceAs (Decidable (_ ∧ _ ∧ _))

/-- `Server::Accept`.  `none` if the number of the new descriptor is in use. -/
def accept (s : Server) (input : Input) : Option Server :=
  match input.accept with
  | none    => some s
  | some fd =>
    if Free s fd then
      some { s with
        socks := Function.update s.socks s.accepted { fd := fd }
        accepted := s.accepted + 1
        newConnection := some s.accepted }
    else none

/-- The `on_recv` of a connection. -/
def onRecv (s : Server) (id : Nat) : Server :=
  { s with
    socks := Function.update s.socks id (s.socks id).recv
    noData := s.noData || (s.socks id).unread.isEmpty }

/-- The `on_close` of a connection. -/
def onClose (s : Server) (id : Nat) : Server :=
  { s with connections := s.connections.erase (.connection id) }.release id

/-- `Connection::eventTrigger` with the callbacks of the handler. -/
def eventTrigger (s : Server) (handler : Handler) (flags : Events) (input : Input) :
    Option Server :=
  if flags.rdhup then
    let s := { s with interest := s.interest.erase handler }
    match handler with
    | .server        => some s
    | .connection id => some (s.onClose id)
  else if flags.readable then
    match handler with
    | .server        => s.accept input
    | .connection id => some (s.onRecv id)
  else some s

/-- What the loop does with `new_connection_`.  The pointer moves to `connections_`. -/
def adopt (s : Server) (input : Input) : Server :=
  match s.newConnection with
  | none    => s
  | some id =>
    if input.register then
      { s with
        interest := .connection id :: s.interest
        captured := id :: s.captured
        connections := .connection id :: s.connections
        newConnection := none }
    else { s with running := false }

/-- An event that `epoll_wait` can return.  A connection is reported at an edge only. -/
def Reported (s : Server) (p : Nat × Events) : Prop :=
  (p.1 = s.terminator ∧ s.triggered = true ∧ p.2 = ⟨false, true⟩) ∨
    ∃ handler ∈ s.interest, s.fdOf handler = p.1 ∧
      match handler with
      | .server        => p.2 = ⟨false, true⟩
      | .connection id => (s.socks id).edge = true ∧ p.2 = (s.socks id).flags ∧ p.2.readable = true

instance (s : Server) (p : Nat × Events) : Decidable (Reported s p) :=
  haveI (handler : Handler) : Decidable (match handler with
      | .server        => p.2 = ⟨false, true⟩
      | .connection id => (s.socks id).edge = true ∧ p.2 = (s.socks id).flags ∧
          p.2.readable = true) :=
    match handler with
    | .server       => inferInstanceAs (Decidable (p.2 = _))
    | .connection _ => inferInstanceAs (Decidable (_ ∧ _ ∧ _))
  inferInstanceAs (Decidable (_ ∨ ∃ handler ∈ s.interest, _ ∧ _))

/-- The sockets after `epoll_wait` has returned the events. -/
def report (s : Server) (events : List (Nat × Events)) (id : Nat) : Sock :=
  if .connection id ∈ s.interest ∧ (s.socks id).fd ∈ events.map Prod.fst
  then (s.socks id).reported else s.socks id

/-- One step.  The terminator ends the loop over the batch, and not the loop of the thread. -/
def step (s : Server) : Act → Option Server
  | .wait events =>
    if s.running = true ∧ s.events = [] ∧ events.length ≤ 10 ∧ (events.map Prod.fst).Nodup ∧
      ∀ p ∈ events, Reported s p
    then some { s with events := events, socks := s.report events }
    else none
  | .waitFails =>
    if s.running = true ∧ s.events = [] then some { s with running := false } else none
  | .dispatch input =>
    if s.running = true then
      match s.events with
      | []                  => none
      | (fd, flags) :: rest =>
        if fd = s.terminator then some { s with events := [] }
        else
          let s := { s with events := rest }
          match s.connections.find? fun handler => s.fdOf handler = fd with
          | none         => some s
          | some handler => (s.eventTrigger handler flags input).map fun s => s.adopt input
    else none
  | .arrive id bytes =>
    if id < s.accepted ∧ (s.socks id).hup = false ∧ bytes ≠ []
    then some { s with socks := Function.update s.socks id ((s.socks id).arrive bytes) }
    else none
  | .leave id =>
    if id < s.accepted
    then some { s with socks := Function.update s.socks id (s.socks id).leave }
    else none
  | .trigger => some { s with triggered := true }

/-- The thread when it enters its loop. -/
def start (listener terminator : Nat) : Server where
  listener := listener
  terminator := terminator
  socks _ := { fd := 0, isOpen := false }
  accepted := 0
  connections := [.server]
  newConnection := none
  captured := []
  interest := [.server]
  events := []
  triggered := false
  running := true
  noData := false

/-! ### The invariant -/

variable {s s' : Server} {id fd : Nat} {input : Input} {flags : Events} {handler : Handler}

/-- A `recv` on the descriptor is due. -/
def pending (events : List (Nat × Events)) (fd : Nat) : Bool :=
  decide ((fd, ⟨false, true⟩) ∈ events)

/-- The sockets.  Their descriptors are all open, and so they are different. -/
structure Sockets (s : Server) : Prop where
  isOpen : ∀ id < s.accepted, (s.socks id).isOpen = true
  apart : ∀ id < s.accepted, (s.socks id).fd ≠ s.listener ∧ (s.socks id).fd ≠ s.terminator
  inj : ∀ id < s.accepted, ∀ id' < s.accepted, (s.socks id).fd = (s.socks id').fd → id = id'
  inv : ∀ id < s.accepted, (s.socks id).Inv (pending s.events (s.socks id).fd)
  events : ∀ p ∈ s.events, p.1 = s.listener ∨ p.1 = s.terminator ∨
    ∃ id < s.accepted, (s.socks id).fd = p.1

/-- What holds between two steps: the sockets, the events that are left, and that a connection in
    the set is one whose callback has captured its pointer. -/
structure Inv (s : Server) : Prop where
  sockets : Sockets s
  nodup : (s.events.map Prod.fst).Nodup
  known : ∀ id, .connection id ∈ s.connections → id < s.accepted ∧ id ∈ s.captured
  watched : ∀ id, .connection id ∈ s.interest → id < s.accepted
  moved : s.running = true → s.newConnection = none
  data : s.noData = false

/-- The server with its listener and its terminator. -/
theorem inv_start (listener terminator : Nat) : Inv (start listener terminator) where
  sockets := ⟨nofun, nofun, nofun, nofun, nofun⟩
  nodup := List.nodup_nil
  known id h := by cases List.mem_singleton.mp h
  watched id h := by cases List.mem_singleton.mp h
  moved _ := rfl
  data := rfl

/-- The same sockets, with other data: only what was sent, read and reported has changed, and the
    events that are left. -/
theorem Inv.of_socks (h : Inv s) {socks : Nat → Sock} {events : List (Nat × Events)}
    (hfd : ∀ id, (socks id).fd = (s.socks id).fd)
    (hopen : ∀ id, (socks id).isOpen = (s.socks id).isOpen)
    (hinv : ∀ id < s.accepted, (socks id).Inv (pending events (s.socks id).fd))
    (hnodup : (events.map Prod.fst).Nodup)
    (hevents : ∀ p ∈ events, p.1 = s.listener ∨ p.1 = s.terminator ∨
      ∃ id < s.accepted, (s.socks id).fd = p.1) :
    Inv { s with socks := socks, events := events } := by
  refine ⟨⟨fun id hid => ?_, fun id hid => ?_, fun id hid id' hid' => ?_, fun id hid => ?_, ?_⟩,
    hnodup, h.known, h.watched, h.moved, h.data⟩
  · exact (hopen id).trans (h.sockets.isOpen id hid)
  · rw [show (socks id).fd = _ from hfd id]
    exact h.sockets.apart id hid
  · rw [show (socks id).fd = _ from hfd id, show (socks id').fd = _ from hfd id']
    exact h.sockets.inj id hid id' hid'
  · rw [show (socks id).fd = _ from hfd id]
    exact hinv id hid
  · simpa only [hfd] using hevents

/-- What happens to one socket: data arrives or the peer leaves, and the other sockets are as they
    were. -/
theorem Inv.update (h : Inv s) {c : Sock} (hfd : c.fd = (s.socks id).fd)
    (hopen : c.isOpen = (s.socks id).isOpen)
    (hinv : id < s.accepted → c.Inv (pending s.events c.fd)) :
    Inv { s with socks := Function.update s.socks id c } := by
  refine h.of_socks (fun id' => ?_) (fun id' => ?_) (fun id' hid' => ?_) h.nodup h.sockets.events
  all_goals by_cases heq : id' = id
  · subst heq
    rw [Function.update_self, hfd]
  · rw [Function.update_of_ne heq]
  · subst heq
    rw [Function.update_self, hopen]
  · rw [Function.update_of_ne heq]
  · subst heq
    rw [Function.update_self, ← hfd]
    exact hinv hid'
  · rw [Function.update_of_ne heq]
    exact h.sockets.inv id' hid'

/-- What is pending in the rest of a batch was pending in the batch. -/
theorem pending_mono {events rest : List (Nat × Events)} (hsub : rest ⊆ events)
    (h : pending rest fd = true) : pending events fd = true :=
  decide_eq_true (hsub (of_decide_eq_true h))

/-- Events are taken from the batch. -/
theorem Inv.of_sublist (h : Inv s) {rest : List (Nat × Events)} (hsub : rest.Sublist s.events) :
    Inv { s with events := rest } :=
  h.of_socks (fun _ => rfl) (fun _ => rfl)
    (fun id hid => (h.sockets.inv id hid).of_pending (pending_mono hsub.subset))
    (h.nodup.sublist (hsub.map _)) fun p hp => h.sockets.events p (hsub.subset hp)

/-- Handlers are unregistered or leave the set, and the thread may end. -/
theorem Inv.of_subset (h : Inv s) {connections interest : List Handler} {triggered running : Bool}
    (hconnections : connections ⊆ s.connections) (hinterest : interest ⊆ s.interest)
    (hrunning : running = true → s.running = true) :
    Inv { s with
      connections := connections, interest := interest, triggered := triggered
      running := running } :=
  ⟨⟨h.sockets.isOpen, h.sockets.apart, h.sockets.inj, h.sockets.inv, h.sockets.events⟩, h.nodup,
    fun id hid => h.known id (hconnections hid), fun id hid => h.watched id (hinterest hid),
    fun hr => h.moved (hrunning hr), h.data⟩

/-- `epoll_wait` reports the edges of the sockets, and takes them; each reported socket has a
    pending event then. -/
theorem inv_wait (h : Inv s) {events : List (Nat × Events)} (hempty : s.events = [])
    (hnodup : (events.map Prod.fst).Nodup) (hreported : ∀ p ∈ events, Reported s p) :
    Inv { s with events := events, socks := s.report events } := by
  have hreport : ∀ id,
      s.report events id = s.socks id ∨ s.report events id = (s.socks id).reported :=
    fun id => (ite_eq_or_eq ..).symm
  refine h.of_socks (fun id => ?_) (fun id => ?_) (fun id hid => ?_) hnodup fun p hp => ?_
  · rcases hreport id with heq | heq <;> rw [heq]; rfl
  · rcases hreport id with heq | heq <;> rw [heq]; rfl
  · have hinv := h.sockets.inv id hid
    rw [hempty] at hinv
    -- an event with the descriptor of the socket is its own
    have howner : ∀ p ∈ events, (s.socks id).fd = p.1 →
        .connection id ∈ s.interest ∧ (s.socks id).edge = true ∧ p.2 = (s.socks id).flags ∧
          p.2.readable = true := by
      intro p hp hfd
      rcases hreported p hp with ⟨hterm, -⟩ | ⟨handler, hmem, hhandler, hflags⟩
      · exact absurd (hfd.trans hterm) (h.sockets.apart id hid).2
      · cases handler with
        | server => exact absurd (hfd.trans hhandler.symm) (h.sockets.apart id hid).1
        | connection id' =>
          have heq : id' = id :=
            h.sockets.inj id' (h.watched id' hmem) id hid (hhandler.trans hfd.symm)
          exact heq ▸ ⟨hmem, hflags⟩
    by_cases hfd : (s.socks id).fd ∈ events.map Prod.fst
    · obtain ⟨p, hp, hpfd⟩ := List.mem_map.mp hfd
      obtain ⟨hmem, hedge, -⟩ := howner p hp hpfd.symm
      rw [report, if_pos ⟨hmem, hfd⟩]
      refine hinv.reported hedge fun hpending => ?_
      obtain ⟨-, -, hflags, hreadable⟩ := howner _ (of_decide_eq_true hpending) rfl
      have hhup : (s.socks id).hup = false := (congrArg Events.rdhup hflags).symm
      refine ⟨hhup, fun hnil => ?_⟩
      have := (congrArg Events.readable hflags).symm
      simp [Sock.flags, hhup, hnil] at this
    · rw [report, if_neg fun hand => hfd hand.2]
      refine hinv.of_pending fun hpending => absurd ?_ hfd
      exact List.mem_map_of_mem (of_decide_eq_true hpending)
  · rcases hreported p hp with ⟨hterm, -⟩ | ⟨handler, hmem, hhandler, -⟩
    · exact .inr (.inl hterm)
    · cases handler with
      | server => exact .inl hhandler.symm
      | connection id => exact .inr (.inr ⟨id, h.watched id hmem, hhandler⟩)

/-- `on_close`.  The connection still holds itself. -/
theorem onClose_eq (h : id ∈ s.captured) :
    s.onClose id = { s with connections := s.connections.erase (.connection id) } :=
  if_pos (.inr (.inr h))

/-- A connection with a number of its own that waits to be registered; its descriptor is not in
    use. -/
theorem Sockets.accept (h : Sockets s) (hfree : Free s fd) (hlistener : s'.listener = s.listener)
    (hterminator : s'.terminator = s.terminator) (hevents : s'.events = s.events)
    (haccepted : s'.accepted = s.accepted + 1)
    (hsocks : s'.socks = Function.update s.socks s.accepted { fd := fd }) : Sockets s' := by
  obtain ⟨hl, ht, hopen⟩ := hfree
  have hne : ∀ id < s.accepted, (s.socks id).fd ≠ fd := fun id hid =>
    hopen id hid (h.isOpen id hid)
  have hnew : s'.socks s.accepted = { fd := fd } := by rw [hsocks, Function.update_self]
  have hold : ∀ id < s.accepted, s'.socks id = s.socks id := fun id hid => by
    rw [hsocks, Function.update_of_ne (Nat.ne_of_lt hid)]
  have hcases : ∀ id < s'.accepted, id < s.accepted ∨ id = s.accepted := fun id hid =>
    Nat.lt_succ_iff_lt_or_eq.mp (Nat.lt_of_lt_of_eq hid haccepted)
  refine ⟨fun id hid => ?_, fun id hid => ?_, fun id hid id' hid' heq => ?_, fun id hid => ?_,
    fun p hp => ?_⟩
  · rcases hcases id hid with hlt | rfl
    · rw [hold id hlt]
      exact h.isOpen id hlt
    · rw [hnew]
  · rw [hlistener, hterminator]
    rcases hcases id hid with hlt | rfl
    · rw [hold id hlt]
      exact h.apart id hlt
    · rw [hnew]
      exact ⟨hl, ht⟩
  · rcases hcases id hid with hlt | rfl <;> rcases hcases id' hid' with hlt' | rfl
    · rw [hold id hlt, hold id' hlt'] at heq
      exact h.inj id hlt id' hlt' heq
    · rw [hold id hlt, hnew] at heq
      exact absurd heq (hne id hlt)
    · rw [hold id' hlt', hnew] at heq
      exact absurd heq.symm (hne id' hlt')
    · rfl
  · rw [hevents]
    rcases hcases id hid with hlt | rfl
    · rw [hold id hlt]
      exact h.inv id hlt
    · -- no event of the batch has the new number
      rw [hnew]
      refine (Sock.inv_new fd).of_pending fun hpending => ?_
      rcases h.events _ (of_decide_eq_true hpending) with heq | heq | ⟨id', hid', heq⟩
      · exact absurd heq hl
      · exact absurd heq ht
      · exact absurd heq (hne id' hid')
  · rw [hevents] at hp
    rw [hlistener, hterminator, haccepted]
    refine (h.events p hp).imp_right (.imp_right ?_)
    rintro ⟨id, hid, hfd⟩
    exact ⟨id, Nat.lt_succ_of_lt hid, (congrArg Sock.fd (hold id hid)).trans hfd⟩

/-- `Server::Accept` and what the loop does then: the new connection is adopted, or the thread ends
    if it cannot be registered. -/
theorem inv_accept (h : Inv s) (hrunning : s.running = true) (hst : s.accept input = some s') :
    Inv (s'.adopt input) := by
  unfold accept at hst
  split at hst
  · cases hst
    rw [adopt, h.moved hrunning]
    exact h
  · rename_i fd _
    rw [Option.ite_none_right_eq_some] at hst
    obtain ⟨hfree, hst⟩ := hst
    cases hst
    rw [adopt]
    dsimp only
    -- with `epollRegister` it becomes a connection of the set; else the thread ends
    split
    · refine ⟨h.sockets.accept hfree rfl rfl rfl rfl rfl, h.nodup, fun id hid => ?_,
        fun id hid => ?_, fun _ => rfl, h.data⟩
      · rcases List.mem_cons.mp hid with heq | hid
        · cases heq
          exact ⟨Nat.lt_succ_self _, List.mem_cons_self⟩
        · obtain ⟨hless, hcaptured⟩ := h.known id hid
          exact ⟨Nat.lt_succ_of_lt hless, List.mem_cons_of_mem _ hcaptured⟩
      · rcases List.mem_cons.mp hid with heq | hid
        · cases heq
          exact Nat.lt_succ_self _
        · exact Nat.lt_succ_of_lt (h.watched id hid)
    · exact ⟨h.sockets.accept hfree rfl rfl rfl rfl rfl, h.nodup,
        fun id hid => ⟨Nat.lt_succ_of_lt (h.known id hid).1, (h.known id hid).2⟩,
        fun id hid => Nat.lt_succ_of_lt (h.watched id hid), nofun, h.data⟩

/-- The `on_recv` of a connection whose event was just taken from the batch. -/
theorem inv_onRecv (h : Inv s) (hunread : (s.socks id).unread ≠ [])
    (hrecv : (s.socks id).recv.Inv (pending s.events (s.socks id).fd)) : Inv (s.onRecv id) := by
  have heq : s.onRecv id = { s with socks := Function.update s.socks id (s.socks id).recv } := by
    rw [onRecv, List.isEmpty_eq_false_iff.mpr hunread, Bool.or_false]
  rw [heq]
  exact h.update rfl rfl fun _ => hrecv

/-- The first event of a batch: the handler hangs up, accepts, or reads what there is. -/
theorem inv_dispatch (h : Inv s) (hrunning : s.running = true) {rest : List (Nat × Events)}
    (hevents : s.events = (s.fdOf handler, flags) :: rest) (hmem : handler ∈ s.connections)
    (hst : { s with events := rest }.eventTrigger handler flags input = some s') :
    Inv (s'.adopt input) := by
  have hnodup := h.nodup
  rw [hevents, List.map_cons, List.nodup_cons] at hnodup
  have hrest : Inv { s with events := rest } :=
    h.of_sublist (hevents ▸ List.sublist_cons_self _ _)
  -- without a new connection there is nothing to adopt
  have hadopt : ∀ t : Server, t.newConnection = none → Inv t → Inv (t.adopt input) := by
    intro t hnone ht
    rw [adopt, hnone]
    exact ht
  unfold eventTrigger at hst
  -- the events in the order of the tests of `eventTrigger`
  by_cases hrdhup : flags.rdhup
  · rw [if_pos hrdhup] at hst
    cases handler with
    | server =>
      cases hst
      exact hadopt _ (h.moved hrunning)
        (hrest.of_subset (fun _ hc => hc) List.erase_subset fun hr => hr)
    | connection id =>
      cases hst
      rw [onClose_eq (s := { s with events := rest, interest := _ }) (h.known id hmem).2]
      exact hadopt _ (h.moved hrunning)
        (hrest.of_subset List.erase_subset List.erase_subset fun hr => hr)
  · rw [if_neg hrdhup] at hst
    by_cases hreadable : flags.readable
    · rw [if_pos hreadable] at hst
      cases handler with
      | server => exact inv_accept hrest hrunning hst
      | connection id =>
        cases hst
        have hid := (h.known id hmem).1
        -- only data: it is the event that `pending` speaks of
        have hflags : flags = ⟨false, true⟩ := by
          cases flags
          simp_all
        have hinv : (s.socks id).Inv true := by
          refine (h.sockets.inv id hid).of_pending fun _ => decide_eq_true ?_
          rw [hevents, hflags]
          exact List.mem_cons_self
        refine hadopt _ (h.moved hrunning) (inv_onRecv hrest (hinv.unread rfl) ?_)
        -- and there is no second event for this socket in the batch
        refine hinv.recv.of_pending fun hpending => absurd ?_ hnodup.1
        exact List.mem_map.mpr ⟨_, of_decide_eq_true hpending, rfl⟩
    · rw [if_neg hreadable] at hst
      cases hst
      exact hadopt _ (h.moved hrunning) hrest

/-- **One step keeps the invariant.**  No branch closes a descriptor: a connection that leaves the
    set is still held by its own callback. -/
theorem inv_step {a : Act} (h : Inv s) (hst : step s a = some s') : Inv s' := by
  cases a with
  | wait events =>
    simp only [step, Option.ite_none_right_eq_some, Option.some.injEq] at hst
    obtain ⟨⟨-, hempty, -, hnodup, hreported⟩, rfl⟩ := hst
    exact inv_wait h hempty hnodup hreported
  | waitFails =>
    simp only [step, Option.ite_none_right_eq_some, Option.some.injEq] at hst
    obtain ⟨-, rfl⟩ := hst
    exact h.of_subset (fun _ hc => hc) (fun _ hi => hi) nofun
  | dispatch input =>
    simp only [step, Option.ite_none_right_eq_some] at hst
    obtain ⟨hrunning, hst⟩ := hst
    split at hst
    · cases hst
    · rename_i fd flags rest hevents
      -- the terminator, a descriptor whose handler has been erased, or an event for a handler
      split at hst
      · cases hst
        exact h.of_sublist (List.nil_sublist _)
      · split at hst
        · cases hst
          exact h.of_sublist (hevents ▸ List.sublist_cons_self _ _)
        · rename_i handler hfind
          obtain ⟨t, ht, rfl⟩ := Option.map_eq_some_iff.mp hst
          have htest := List.find?_some hfind
          have hfd : s.fdOf handler = fd := of_decide_eq_true htest
          exact inv_dispatch h hrunning (hfd ▸ hevents) (List.mem_of_find?_eq_some hfind) ht
  | arrive id bytes =>
    simp only [step, Option.ite_none_right_eq_some, Option.some.injEq] at hst
    obtain ⟨-, rfl⟩ := hst
    exact h.update rfl rfl fun hid => (h.sockets.inv id hid).arrive
  | leave id =>
    simp only [step, Option.ite_none_right_eq_some, Option.some.injEq] at hst
    obtain ⟨-, rfl⟩ := hst
    exact h.update rfl rfl fun hid => (h.sockets.inv id hid).leave
  | trigger =>
    cases hst
    exact h.of_subset (fun _ hc => hc) (fun _ hi => hi) fun hr => hr

/-! ### The thread -/

/-- No handler ends the thread: `running` changes only where a call of the loop itself fails. -/
theorem running_eventTrigger (hst : s.eventTrigger handler flags input = some s') :
    s'.running = s.running := by
  unfold eventTrigger at hst
  -- none of the callbacks changes `running`
  by_cases hrdhup : flags.rdhup
  · rw [if_pos hrdhup] at hst
    cases handler with
    | server =>
      cases hst
      rfl
    | connection id =>
      cases hst
      unfold onClose release
      split <;> rfl
  · rw [if_neg hrdhup] at hst
    split at hst
    · cases handler with
      | server =>
        simp only [accept] at hst
        split at hst
        · cases hst
          rfl
        · rw [Option.ite_none_right_eq_some] at hst
          cases hst.2
          rfl
      | connection id =>
        cases hst
        rfl
    · cases hst
      rfl

/-- The thread goes on if no call fails, whatever the event is; the terminator is no exception. -/
theorem running_step {a : Act} (h : s.running = true) (ha : a.Succeeds) (hst : step s a = some s') :
    s'.running = true := by
  cases a with
  | wait events =>
    simp only [step, Option.ite_none_right_eq_some, Option.some.injEq] at hst
    obtain ⟨-, rfl⟩ := hst
    exact h
  | waitFails => exact ha.elim
  | dispatch input =>
    simp only [step, if_pos h] at hst
    split at hst
    · cases hst
    · split at hst
      · -- the terminator ends only the loop over the batch
        cases hst
        exact h
      · split at hst
        · cases hst
          exact h
        · obtain ⟨t, ht, rfl⟩ := Option.map_eq_some_iff.mp hst
          have hrunning := (running_eventTrigger ht).trans h
          have hregister : input.register = true := ha
          unfold adopt
          split
          · exact hrunning
          · rw [if_pos hregister]
            exact hrunning
  | arrive id bytes =>
    simp only [step, Option.ite_none_right_eq_some, Option.some.injEq] at hst
    obtain ⟨-, rfl⟩ := hst
    exact h
  | leave id =>
    simp only [step, Option.ite_none_right_eq_some, Option.some.injEq] at hst
    obtain ⟨-, rfl⟩ := hst
    exact h
  | trigger =>
    cases hst
    exact h

/-! ### The runs -/

/-- The invariant of every run. -/
theorem inv_exec {listener terminator : Nat} {acts : List Act}
    (hrun : exec step (start listener terminator) acts = some s) : Inv s :=
  exec_invariant (fun _ _ _ h hst => inv_step h hst) (inv_start listener terminator) hrun

/-- **Nothing is closed and nothing ends.**  In every run every accepted descriptor is still open,
    also when the peer has left and the connection is out of `connections_`; and as long as
    `epoll_wait` and `epollRegister` succeed the thread is in its loop, whether or not the
    terminator was triggered. -/
theorem never_closed (listener terminator : Nat) (acts : List Act) (s : Server)
    (hrun : exec step (start listener terminator) acts = some s) :
    (∀ id < s.accepted, (s.socks id).isOpen = true) ∧
      ((∀ a ∈ acts, a.Succeeds) → s.running = true) := by
  refine ⟨(inv_exec hrun).sockets.isOpen, fun hok => ?_⟩
  exact exec_invariant_along (fun _ _ _ h ha hst => running_step h ha hst) rfl
    (along_of_forall hok _) hrun

/-- A peer sends 1500 bytes and leaves; the terminator is triggered before the thread sees that. -/
def visit : List Act :=
  [.wait [(3, ⟨false, true⟩)], .dispatch ⟨some 5, true⟩, .arrive 0 (List.replicate 1500 65),
   .wait [(5, ⟨false, true⟩)], .dispatch ⟨none, true⟩, .leave 0, .trigger,
   .wait [(5, ⟨true, true⟩), (4, ⟨false, true⟩)], .dispatch ⟨none, true⟩, .dispatch ⟨none, true⟩,
   .wait [(4, ⟨false, true⟩)]]

/-- The peer has left, and the descriptor is open still. -/
theorem never_closed_visit : ∃ s, exec step (start 3 4) visit = some s ∧
    s.connections = [.server] ∧ s.interest = [.server] ∧ (s.socks 0).hup = true ∧
    (s.socks 0).isOpen = true ∧ s.running = true := by
  obtain ⟨s, hrun, htest⟩ := exists_of_exec_any
    (show (exec step (start 3 4) visit).any (fun s => s.connections = [.server] ∧
      s.interest = [.server] ∧ (s.socks 0).hup = true ∧ s.accepted = 1) = true by decide +kernel)
  obtain ⟨hconnections, hinterest, hhup, haccepted⟩ := of_decide_eq_true htest
  obtain ⟨hopen, hrunning⟩ := never_closed 3 4 visit s hrun
  exact ⟨s, hrun, hconnections, hinterest, hhup, hopen 0 (haccepted ▸ Nat.zero_lt_one),
    hrunning (by decide +kernel)⟩

/-- **One `recv` for an arrival.**  In every run each `recv` finds data, what is read from a
    connection is the beginning of what its peer has sent, and it is at most 1024 bytes for each
    arrival: the rest of a longer one is not read before the peer sends again. -/
theorem reads_per_arrival (listener terminator : Nat) (acts : List Act) (s : Server)
    (hrun : exec step (start listener terminator) acts = some s) :
    s.noData = false ∧ ∀ id < s.accepted,
      (s.socks id).received ++ (s.socks id).unread = (s.socks id).sent ∧
      (s.socks id).received.length ≤ 1024 * (s.socks id).arrivals := by
  have hinv := inv_exec hrun
  refine ⟨hinv.data, fun id hid => ?_⟩
  obtain ⟨hdata, hsize, hbudget, -⟩ := hinv.sockets.inv id hid
  exact ⟨hdata, Nat.le_trans hsize (Nat.mul_le_mul_left _ (by omega))⟩

/-- A message of 1500 bytes arrives at once: 1024 of them are logged, and the others stay unread. -/
theorem reads_per_arrival_visit : ∃ s, exec step (start 3 4) visit = some s ∧
    (s.socks 0).unread.length = 476 ∧
    (s.socks 0).received ++ (s.socks 0).unread = (s.socks 0).sent := by
  obtain ⟨s, hrun, htest⟩ := exists_of_exec_any
    (show (exec step (start 3 4) visit).any (fun s => (s.socks 0).unread.length = 476 ∧
      s.accepted = 1) = true by decide +kernel)
  obtain ⟨hunread, haccepted⟩ := of_decide_eq_true htest
  exact ⟨s, hrun, hunread,
    ((reads_per_arrival 3 4 visit s hrun).2 0 (haccepted ▸ Nat.zero_lt_one)).1⟩

end Server

end CPlayground.Relay
