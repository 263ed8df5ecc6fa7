import CPlayground.Lib.Trace
import CPlayground.Monitor.Poll
import Mathlib.Algebra.Order.Ring.Rat
import Mathlib.Data.Rat.Defs

namespace CPlayground.Monitor

open CPlayground.Table

/-!
# `Forwarder`: handing connections over to other processes

A follower is a process that registers its pid over a Unix socket and later asks for the connection
with a given dialogue number; a client is a TCP connection whose header carries such a number.
Whichever comes second finds the other waiting, and the client's descriptor is sent to the follower.

* `Forwarder` — `list_client`, `list_follower`, `map_follower` and the poll entries.  A list
  iterator is the number of the node it points to; an iterator that is followed after its node is
  gone sets `undefined`.
* `acceptFollower`, `acceptClient`, `peekHeader`, `handleNotify`, `hangup` — the callbacks of the
  loop, each one an event; `step` runs one of them.
* `log` — the notifications and publications so far, the latest first.

Clock readings are exact numbers of milliseconds.  `SendFd` succeeds.  The `timestamp` of a
`FollowerContext` is never read and left out.
-/

/-- `PAYLOADHEADER_partial`, with the number of the connection. -/
structure ClientInfo where
  fd : Nat
  dialogue : Int32
  timestamp : ℚ
  conn : Nat
  deriving DecidableEq

/-- `FollowerContext`, with the number of its list node. -/
structure FollowerContext where
  node : Nat
  pid : Int32
  fd : Nat
  dialogue : Int32
  deriving DecidableEq

namespace Forwarder

/-- An accepted socket: of the TCP server or of the Unix server. -/
inductive Socket where
  | client (conn : Nat)
  | follower (node : Nat)
  deriving DecidableEq

/-- What the forwarder has done. -/
inductive Event where
  /-- `handle_notify` set the dialogue of a follower. -/
  | notified (node : Nat) (dialogue : Int32)
  /-- A client was published to a follower. -/
  | published (f : FollowerContext) (c : ClientInfo)
  deriving DecidableEq

/-- The follower an event is about. -/
def Event.node : Event → Nat
  | .notified node _ => node
  | .published f _   => f.node

end Forwarder

open Forwarder in
/-- `Forwarder`. -/
structure Forwarder where
  list_client : List ClientInfo
  list_follower : List FollowerContext
  map_follower : AList fun _ : Int32 => Nat
  poll : Poll Socket
  /-- The number of clients accepted so far. -/
  clients : Nat
  /-- The number of followers accepted so far. -/
  followers : Nat
  log : List Event
  undefined : Bool

/-- In milliseconds. -/
def CLIENTINFO_EXPIREDTHRESHOLD : ℚ := 5000

namespace Forwarder

/-- Nobody is connected. -/
def init : Forwarder := ⟨[], [], ∅, .empty, 0, 0, [], false⟩

/-- The list element an iterator points to. -/
def deref (list_follower : List FollowerContext) (node : Nat) : Option FollowerContext :=
  list_follower.find? fun f => f.node = node

/-- `it->dialogue = dialogue`. -/
def setDialogue (s : Forwarder) (node : Nat) (dialogue : Int32) : Forwarder :=
  { s with list_follower := s.list_follower.map fun f =>
      if f.node = node then { f with dialogue := dialogue } else f }

/-- `FollowerContext::publish`. -/
def publish (s : Forwarder) (f : FollowerContext) (c : ClientInfo) : Forwarder :=
  { s.setDialogue f.node (-1) with log := .published f c :: s.log }

/-- `accept_follower`, for a peer that sends `pid`. -/
def acceptFollower (s : Forwarder) (fd : Nat) (pid : Int32) : Forwarder :=
  { s with
    list_follower := ⟨s.followers, pid, fd, -1⟩ :: s.list_follower
    map_follower := insertNew s.map_follower pid s.followers
    poll := (s.poll.accept fd (.follower s.followers)).registerEntry fd (.follower s.followers)
    followers := s.followers + 1 }

/-- `accept_client`. -/
def acceptClient (s : Forwarder) (fd : Nat) : Forwarder :=
  { s with
    poll := (s.poll.accept fd (.client s.clients)).registerEntry fd (.client s.clients)
    clients := s.clients + 1 }

/-- What a loop over `map_follower` finds. -/
inductive Found where
  | absent
  | follower (f : FollowerContext)
  /-- The loop followed an iterator to a node that is gone. -/
  | dangling

/-- The loop of `peek_header` over `map_follower`: the first follower that waits for `dialogue`. -/
def waiting (list_follower : List FollowerContext) (dialogue : Int32) : List Nat → Found
  | []            => .absent
  | node :: nodes =>
    match deref list_follower node with
    | none   => .dangling
    | some f => if f.dialogue = dialogue then .follower f else waiting list_follower dialogue nodes

/-- `peek_header` for client `conn` on `fd`.  `order` is the order in which the loop meets the
    entries of `map_follower`, which `unordered_map` leaves open. -/
def peekHeader (s : Forwarder) (fd conn : Nat) (dialogue : Int32) (now : ℚ) (order : List Nat) :
    Forwarder :=
  let c : ClientInfo := ⟨fd, dialogue, now, conn⟩
  let s := { s with list_client := c :: s.list_client, poll := s.poll.remove fd }
  match waiting s.list_follower dialogue order with
  | .dangling   => { s with undefined := true }
  | .absent     => s   -- `giveupOwnership`: the client keeps the descriptor
  | .follower f =>
    -- `pop_front`, then the destructor of the local entry
    { s.publish f c with list_client := s.list_client.tail, poll := s.poll.close fd }

/-- The outcome of the loop of `handle_notify` over `list_client`. -/
structure Scan where
  invalid : List ClientInfo
  /-- The client that is published and erased. -/
  matched : Option ClientInfo
  /-- `list_client` after the loop and the erasure of `invalid`. -/
  kept : List ClientInfo

/-- The loop of `handle_notify` over `list_client`: expired clients are collected until the first
    other one with this dialogue. -/
def scan (dialogue : Int32) (current : ℚ) : List ClientInfo → Scan
  | []      => ⟨[], none, []⟩
  | c :: cs =>
    if current - c.timestamp > CLIENTINFO_EXPIREDTHRESHOLD then
      let r := scan dialogue current cs
      { r with invalid := c :: r.invalid }
    else if c.dialogue = dialogue then ⟨[], some c, cs⟩
    else
      let r := scan dialogue current cs
      { r with kept := c :: r.kept }

/-- `handle_notify`. -/
def handleNotify (s : Forwarder) (pid dialogue : Int32) (current : ℚ) : Forwarder :=
  match s.map_follower.lookup pid with
  | none      => s
  | some node =>
    match deref s.list_follower node with
    | none   => { s with undefined := true }
    | some f =>
      let s := { s.setDialogue node dialogue with log := .notified node dialogue :: s.log }
      let r := scan dialogue current s.list_client
      let s := { s with list_client := r.kept }
      match r.matched with
      | none   => s
      | some c => { s.publish { f with dialogue := dialogue } c with poll := s.poll.close c.fd }

/-- The follower on `fd` has quit: the `on_close` callback of `accept_follower`.  The source erases
    the node from `list_follower` and takes the key for `map_follower` from it after that, which is
    a use after free; here the pid is the one that the node had before it was erased. -/
def closeFollower (s : Forwarder) (fd : Nat) : Forwarder :=
  match s.list_follower.find? fun f => f.fd = fd with
  | none   => s
  | some f => { s with list_follower := s.list_follower.eraseP fun f => f.fd = fd
                       map_follower := s.map_follower.erase f.pid }

/-- `EPOLLRDHUP` on `fd`: the entry's own `on_close`, if any, and then the entry is erased. -/
def hangup (s : Forwarder) (fd : Nat) : Socket → Forwarder
  | .client _   => { s with poll := s.poll.erase fd }
  | .follower _ => let s := s.closeFollower fd
                   { s with poll := s.poll.erase fd }

/-- The events the loop handles: new sockets, a header or a notification that was read, and a socket
    that hangs up. -/
inductive Act where
  | acceptFollower (fd : Nat) (pid : Int32)
  | acceptClient (fd : Nat)
  | peekHeader (fd : Nat) (dialogue : Int32) (now : ℚ) (order : List Nat)
  | notify (pid dialogue : Int32) (now : ℚ)
  | hangup (fd : Nat)

/-- One event.  `accept` returns a descriptor that is not open; the others happen on a descriptor
    with an entry. -/
def step (s : Forwarder) : Act → Option Forwarder
  | .acceptFollower fd pid =>
    if s.poll.fds.lookup fd = none then some (s.acceptFollower fd pid) else none
  | .acceptClient fd =>
    if s.poll.fds.lookup fd = none then some (s.acceptClient fd) else none
  | .peekHeader fd dialogue now order =>
    match s.poll.entry_map.lookup fd with
    | some (.client conn) =>
      if order.Perm (values s.map_follower) then some (s.peekHeader fd conn dialogue now order)
      else none
    | _ => none
  | .notify pid dialogue now => some (s.handleNotify pid dialogue now)
  | .hangup fd =>
    match s.poll.entry_map.lookup fd with
    | some c => some (s.hangup fd c)
    | none   => none

end Forwarder

end CPlayground.Monitor
