import CPlayground.Lib.Trace
import CPlayground.Monitor.Heartbeat
import CPlayground.Monitor.Message
import CPlayground.Monitor.TaskRunner

namespace CPlayground.Monitor

open CPlayground.Trace

/-!
# `Listener`: one peer, a loop, a worker and a heartbeat

`Listener::run` polls an eventfd (`msghub`), the listening socket and the accepted one.  It reads
requests and hands them to the worker thread (`TaskRunner`), which runs `Listener::Work` and
publishes the response through `Writer::pub`; the loop then writes it.  The timer thread calls
`Listener::Ping` from time to time.  Other threads call `Writer::pub` and `Listener::runOnLoop`.

One step of the model is one access of one thread to shared data: a locked block, an eventfd
operation, a system call on a socket, an access to the state word, a call of `onDisconnect`.  What
the kernel and the peers do is chosen by the step's label.  The timer branch of the loop touches
only the `tRunner`; it is the `readTimer` and `forward` of `TRunner.step`.

The model keeps histories that the program does not have: which connection an accepted descriptor
stands for, which request a task and a response belong to, what was published, handed to the
writer, written, closed and executed.
-/

/-! ### Data -/

/-- The `n`-th connection that `accept` returned. -/
abbrev Conn := Nat

/-- An accepted request: its number, the connection it was read from and its arguments. -/
structure Request where
  seq : Nat
  conn : Conn
  args : MsgRequest
  deriving DecidableEq

/-- A published message; `origin` is the request `Work` computed it for, if it did. -/
structure Message where
  raw : MsgRaw
  origin : Option Request
  deriving DecidableEq

/-- A closure for the loop.  The one that sets the state to `TERMINATED` is the way to stop it. -/
inductive Closure where
  | terminate
  | other (tag : Nat)
  deriving DecidableEq

/-- `Reader`. -/
structure Reader where
  msgreq : MsgRequest
  msght : MsgHeartbeat
  lastest_readts : ℚ

/-- `Metrics`. -/
structure Metrics where
  work : Int
  idle : Int
  times : Int
  ops : UInt64

/-- `OPMASK`. -/
def OPMASK : UInt64 := (1 : UInt64) <<< 63

namespace Listener

def kNotifySmall : Nat := 1
def kNotifyMedium : Nat := 2 ^ 31
def kNotifyLarge : Nat := 2 ^ 63

/-- Where `Listener::run` stands.  `deferred` says that `switchstate` holds `onWork`, which runs at
    the end of the iteration. -/
inductive LoopPc where
  /-- At the top of an iteration. -/
  | top
  /-- Blocked in `poll`; `all` says that `positivepfd` is among the descriptors. -/
  | polling (all : Bool)
  | retrieving
  | swapClosures
  | closures (todo : List Closure)
  | swapMsgs
  | writing (todo : List Message)
  | checkTerminated
  | connecting
  | checkReadable (deferred : Bool)
  | reading (deferred : Bool)
  /-- A request was accepted and is to be pushed to the worker, ... -/
  | posting (deferred : Bool) (r : Request)
  /-- ... which is then to be notified. -/
  | posted (deferred : Bool)
  /-- `onUnpackError`: the message is to be published, ... -/
  | unpackError (deferred : Bool)
  /-- ... and the loop to be notified. -/
  | published (deferred : Bool)
  | endIteration (deferred : Bool)
  | exited
  deriving DecidableEq

/-- Where the worker stands inside `Listener::Work`. -/
inductive WorkPc where
  /-- Not inside `Work`. -/
  | ready
  /-- Called for `r`; the input is not read. -/
  | started (r : Request)
  /-- The response is computed. -/
  | computed (r : Request) (raw : MsgRaw)
  | published
  deriving DecidableEq

/-- Where the timer thread stands inside `Listener::Ping`. -/
inductive PingPc where
  | outside
  /-- `heartbeat.ping` returned `false`. -/
  | disconnecting
  | publishing (raw : MsgRaw)
  | published
  deriving DecidableEq

end Listener

open Listener (LoopPc WorkPc PingPc)

/-- A `Listener` inside `run`, with the threads that use it. -/
structure Listener where
  state : State
  peerfd : Int
  /-- `positivepfd.fd`. -/
  positivefd : Int
  /-- `revents & POLLIN` of `activepfd` and `positivepfd`, as of the last `poll` that set them. -/
  active : Bool
  positive : Bool
  msghub : Notifier
  worker : TaskRunner Request
  heartbeat : Heartbeat
  r : Reader
  /-- `w.msgs`. -/
  msgs : List Message
  closures : List Closure
  metrics : Metrics
  /-- The static `timeout` of `Work`. -/
  timeout : Int
  loop : LoopPc
  work : WorkPc
  ping : PingPc
  /-- Threads inside `pub`, and threads inside `runOnLoop`, before their notification. -/
  pubs : List Tid
  submits : List Tid
  /-- The open descriptors that `accept` returned. -/
  fds : List (Int × Conn)
  /-- How many connections were accepted, and how many requests. -/
  accepted : Nat
  requests : Nat
  closed : List Conn
  written : List (Conn × Message)
  publications : List Message
  handed : List Message
  submitted : List Closure
  executed : List Closure
  /-- The executions of `Work`: the request of the task, and the input it used. -/
  works : List (Request × MsgRequest)

namespace Listener

/-- A listener that has entered its loop. -/
def init : Listener where
  state := .IDLE
  peerfd := -1
  positivefd := -1
  active := false
  positive := false
  msghub := .new
  worker := .init
  heartbeat := .new
  r := ⟨⟨0, 0⟩, .new, -1⟩
  msgs := []
  closures := []
  metrics := ⟨0, 0, 0, 0⟩
  timeout := -1
  loop := .top
  work := .ready
  ping := .outside
  pubs := []
  submits := []
  fds := []
  accepted := 0
  requests := 0
  closed := []
  written := []
  publications := []
  handed := []
  submitted := []
  executed := []
  works := []

/-- The connection behind `peerfd`. -/
def peer (s : Listener) : Option Conn := s.fds.lookup s.peerfd

/-- `Listener::onDisconnect`.  Closing a descriptor that is not open does nothing. -/
def onDisconnect (s : Listener) : Listener :=
  { s with
    fds := s.fds.filter fun p => p.1 ≠ s.peerfd
    closed := s.closed ++ s.peer.toList
    peerfd := -1
    state := .IDLE
    r := { s.r with lastest_readts := -1 }
    heartbeat := s.heartbeat.reset
    metrics := { s.metrics with ops := 0 } }

/-- The locked half of `Writer::pub`. -/
def append (s : Listener) (raw : MsgRaw) (origin : Option Request) : Listener :=
  { s with msgs := s.msgs ++ [⟨raw, origin⟩], publications := s.publications ++ [⟨raw, origin⟩] }

/-- `msghub.notify(event)`; `none` while the write blocks. -/
def notifyHub (s : Listener) (event : Nat) : Option Listener :=
  (s.msghub.notify event).map fun n => { s with msghub := n }

/-- A string literal as bytes. -/
def ascii (text : String) : List UInt8 := text.toList.map fun c => UInt8.ofNat c.toNat

/-- The message of `onUnpackError`. -/
def invalidMessage : MsgRaw := ⟨MSGRESPONSE, (MsgResponse.mk (ascii "invalid message") []).pack⟩

/-! ### The threads -/

/-- The steps of the loop: the choices of the kernel and the peer, `next` where there is none. -/
inductive LoopAct where
  | next
  | poll (active positive : Bool)
  | interrupted
  | pollError
  | write (ok : Bool)
  /-- `accept` returns this descriptor, or fails. -/
  | accept (fd : Option Int)
  /-- The peer's stream is `stream` and the clock then shows `now`. -/
  | read (stream : List UInt8) (now : UInt64)

/-- The end of `Writer::write`'s handling of one written message. -/
def countResponse (ops : UInt64) (msg : Message) : UInt64 :=
  if msg.raw.type = MSGRESPONSE then
    if ops &&& OPMASK ≠ 0 then (ops &&& ~~~OPMASK) + 1 else ops
  else ops

/-- `Reader::read` after a message was read from connection `c`, up to the next shared access. -/
def handle (s : Listener) (deferred : Bool) (c : Conn) (raw : MsgRaw) (now : UInt64) : Listener :=
  if raw.type = MSGREQUEST then
    match s.r.msgreq.unpack (.new raw.payload) with
    | (true, m, _) =>
      { s with r := { s.r with msgreq := m, lastest_readts := doubleValue now },
               metrics := { s.metrics with ops := s.metrics.ops ||| OPMASK },
               requests := s.requests + 1,
               loop := .posting deferred ⟨s.requests, c, m⟩ }
    | (false, m, _) => { s with r := { s.r with msgreq := m }, loop := .unpackError deferred }
  else if raw.type = MSGPONG then
    match s.r.msght.unpack (.new raw.payload) with
    | (true, m, _) =>
      { s with r := { s.r with msght := m },
               heartbeat := { s.heartbeat with lastest_pongts := doubleValue now }.updateRTT
                 (doubleValue now - doubleValue m.timestamp),
               loop := .endIteration deferred }
    | (false, m, _) => { s with r := { s.r with msght := m }, loop := .unpackError deferred }
  else { s with loop := .endIteration deferred }

/-- `Listener::run`. -/
def stepLoop (s : Listener) : LoopAct → Option Listener
  | .next =>
    match s.loop with
    | .top => some { s with loop := .polling (s.state ≠ .IDLE) }
    | .retrieving =>
      -- the sum decides, so at most one of the queues is served
      let (ev, n) := s.msghub.retrieve
      some { s with msghub := n,
                    loop := if kNotifyLarge ≤ ev then .exited
                            else if kNotifyMedium ≤ ev then .swapClosures
                            else if kNotifySmall ≤ ev then .swapMsgs
                            else .checkTerminated }
    | .swapClosures => some { s with closures := [], loop := .closures s.closures }
    | .closures (fn :: todo) =>
      some { s with state := if fn = .terminate then .TERMINATED else s.state,
                    executed := s.executed ++ [fn], loop := .closures todo }
    | .closures [] => some { s with loop := .checkTerminated }
    | .swapMsgs => some { s with msgs := [], handed := s.handed ++ s.msgs, loop := .writing s.msgs }
    | .writing [] => some { s with loop := .checkTerminated }
    | .checkTerminated =>
      some { s with loop := if s.state = .TERMINATED then .exited else .connecting }
    | .connecting => if s.active then none else some { s with loop := .checkReadable false }
    | .checkReadable deferred =>
      some { s with loop := if s.state = .WORK ∧ s.positive then .reading deferred
                            else .endIteration deferred }
    | .posting deferred r =>
      (s.worker.step (.push 0 ⟨some r⟩)).map fun w =>
        { s with worker := w, loop := .posted deferred }
    | .posted deferred =>
      (s.worker.step (.notify 0)).map fun w =>
        { s with worker := w, loop := .endIteration deferred }
    | .unpackError deferred =>
      some { s.append invalidMessage none with loop := .published deferred }
    | .published deferred =>
      (s.notifyHub kNotifySmall).map fun s => { s with loop := .endIteration deferred }
    | .endIteration deferred =>
      -- the destructor of `switchstate`
      some { s with state := if deferred then .WORK else s.state, loop := .top }
    | _ => none
  | .poll active positive =>
    match s.loop with
    | .polling all =>
      -- `revents` keeps its last value where a descriptor is not polled
      some { s with active := active, positive := if all then positive else s.positive,
                    loop := if 0 < s.msghub.value then .retrieving else .checkTerminated }
    | _ => none
  | .interrupted =>
    match s.loop with
    | .polling _ => some { s with loop := .top }
    | _ => none
  | .pollError =>
    match s.loop with
    | .polling _ => some { s with loop := .exited }
    | _ => none
  | .write ok =>
    match s.loop with
    | .writing (msg :: todo) =>
      match s.peer, ok with
      | some c, true =>
        some { s with written := s.written ++ [(c, msg)],
                      metrics := { s.metrics with ops := countResponse s.metrics.ops msg },
                      loop := .writing todo }
      -- the rest of the batch is dropped
      | _, _ => some { s.onDisconnect with loop := .checkTerminated }
    | _ => none
  | .accept fd =>
    match s.loop with
    | .connecting =>
      if s.active then
        match fd with
        | none => some { s with peerfd := -1, loop := .top }
        -- the descriptor is one that is not in use; an earlier `peerfd` stays open
        | some fd =>
          if 0 ≤ fd ∧ fd ∉ s.fds.map Prod.fst then
            some { s with peerfd := fd, positivefd := fd,
                          metrics := { s.metrics with times := s.metrics.times + 1 },
                          fds := (fd, s.accepted) :: s.fds, accepted := s.accepted + 1,
                          loop := .checkReadable true }
          else none
      else none
    | _ => none
  | .read stream now =>
    match s.loop with
    | .reading deferred =>
      match s.peer with
      | some c =>
        if (MsgRaw.fresh.read stream).ok then
          some (s.handle deferred c (MsgRaw.fresh.read stream).msg now)
        else some { s.onDisconnect with loop := .endIteration deferred }
      -- `recv` on a descriptor that is not open fails
      | none => some { s.onDisconnect with loop := .endIteration deferred }
    | _ => none

/-- The steps of the worker thread: those of `TaskRunner::Run`, with the run of a task cut into the
    accesses of `Listener::Work`. -/
inductive WorkerAct where
  | interrupted
  | retrieve
  | collect
  | start
  | input
  | publish
  | notify
  | rest
  | stop

/-- The table `a` of `Work`. -/
def words : List String :=
  ["photo", "view", "cave", "run", "maximum", "hair", "chef", "horror", "hand", "frozen"]

/-- `if (++timeout == MAXTESTTIMEOUT) timeout = 0`. -/
def nextTimeout (timeout : Int) : Int := if timeout + 1 = 10 then 0 else timeout + 1

/-- The response `Work` publishes. -/
def response (timeout : Int) : MsgRaw :=
  ⟨MSGRESPONSE, (MsgResponse.mk (ascii (words.getD timeout.toNat "")) [9, 9, 6, 5]).pack⟩

/-- A step of `TaskRunner::Run` outside `Work`. -/
def stepRunner (s : Listener) (a : TaskRunner.Act Request) : Option Listener :=
  (s.worker.step a).map fun w => { s with worker := w }

/-- `TaskRunner::Run` and `Listener::Work`. -/
def stepWorker (s : Listener) : WorkerAct → Option Listener
  | .interrupted => s.stepRunner .interrupted
  | .retrieve => s.stepRunner .retrieve
  | .collect => s.stepRunner .collect
  | .start =>
    match s.work, s.worker.run with
    | .ready, .running (r :: _) =>
      (s.worker.step .runTask).map fun w => { s with worker := w, work := .started r }
    | _, _ => none
  | .input =>
    match s.work with
    | .started r =>
      -- the input is whatever `Reader::msgreq` holds by now
      some { s with works := s.works ++ [(r, s.r.msgreq)], timeout := nextTimeout s.timeout,
                    work := .computed r (response (nextTimeout s.timeout)) }
    | _ => none
  | .publish =>
    match s.work with
    | .computed r raw => some { s.append raw (some r) with work := .published }
    | _ => none
  | .notify =>
    match s.work with
    | .published => (s.notifyHub kNotifySmall).map fun s => { s with work := .ready }
    | _ => none
  | .rest =>
    match s.work with
    | .ready => s.stepRunner .rest
    | _ => none
  | .stop => s.stepRunner .stop

/-- The steps of the timer thread inside `Listener::Ping`. -/
inductive PingAct where
  | test (now : UInt64)
  | disconnect
  | publish
  | notify

/-- The message `Heartbeat::ping` publishes. -/
def pingMessage (now : UInt64) : MsgRaw := ⟨MSGPING, (MsgHeartbeat.mk now).pack⟩

/-- `Listener::Ping` and `Heartbeat::ping`. -/
def stepPing (s : Listener) : PingAct → Option Listener
  | .test now =>
    match s.ping with
    | .outside =>
      if s.state = .IDLE then
        some { s with metrics := { s.metrics with idle := s.metrics.idle + HEARTBEAT_DURATION } }
      else
        let (verdict, h) := s.heartbeat.ping (doubleValue now) s.r.lastest_readts
        some { s with metrics := { s.metrics with work := s.metrics.work + HEARTBEAT_DURATION },
                      heartbeat := h,
                      ping := match verdict with
                        | .recent => .outside
                        | .dead => .disconnecting
                        | .send => .publishing (pingMessage now) }
    | _ => none
  | .disconnect =>
    match s.ping with
    | .disconnecting => some { s.onDisconnect with ping := .outside }
    | _ => none
  | .publish =>
    match s.ping with
    | .publishing raw => some { s.append raw none with ping := .published }
    | _ => none
  | .notify =>
    match s.ping with
    | .published => (s.notifyHub kNotifySmall).map fun s => { s with ping := .outside }
    | _ => none

/-- A step of the system: of the loop, of the worker, of the timer thread, or of a thread that calls
    `Writer::pub` or `runOnLoop`. -/
inductive Act where
  | loop (a : LoopAct)
  | worker (a : WorkerAct)
  | ping (a : PingAct)
  /-- Thread `k` calls `Writer::pub`: the locked append, and the notification. -/
  | pub (k : Tid) (raw : MsgRaw)
  | pubNotify (k : Tid)
  /-- Thread `k` calls `runOnLoop`, with a closure or an empty one. -/
  | runOnLoop (k : Tid) (closure : Option Closure)
  | runOnLoopNotify (k : Tid)
  /-- The notification of `~Listener`. -/
  | quit

/-- One atomic step; `none` where the thread is at another point of its code, or has to wait. -/
def step (s : Listener) : Act → Option Listener
  | .loop a => s.stepLoop a
  | .worker a => s.stepWorker a
  | .ping a => s.stepPing a
  | .pub k raw =>
    if k ∈ s.pubs then none else some { s.append raw none with pubs := k :: s.pubs }
  | .pubNotify k =>
    if k ∈ s.pubs then
      (s.notifyHub kNotifySmall).map fun s => { s with pubs := s.pubs.erase k }
    else none
  | .runOnLoop k closure =>
    if k ∈ s.submits then none
    else match closure with
      | none => some s
      | some fn => some { s with closures := s.closures ++ [fn], submitted := s.submitted ++ [fn],
                                 submits := k :: s.submits }
  | .runOnLoopNotify k =>
    if k ∈ s.submits then
      (s.notifyHub kNotifyMedium).map fun s => { s with submits := s.submits.erase k }
    else none
  | .quit => s.notifyHub kNotifyLarge

/-! ### Fragments of runs -/

/-- `n` steps of the loop that leave no choice. -/
def nexts (n : Nat) : List Act := List.replicate n (.loop .next)

/-- One iteration that accepts the descriptor `fd`. -/
def acceptPeer (fd : Int) : List Act :=
  [.loop .next, .loop (.poll true false), .loop .next, .loop (.accept (some fd)), .loop .next,
    .loop .next]

/-- One iteration that reads from the peer, up to the read. -/
def readPeer (stream : List UInt8) : List Act :=
  [.loop .next, .loop (.poll false true), .loop .next, .loop .next, .loop .next,
    .loop (.read stream 0)]

/-- The frame of a request. -/
def requestFrame (op arg : Int32) : List UInt8 :=
  (MsgRaw.mk MSGREQUEST (MsgRequest.mk op arg).pack).frame

/-- One iteration that reads a request and posts its task. -/
def readRequest (op arg : Int32) : List Act := readPeer (requestFrame op arg) ++ nexts 3

/-- The worker takes its tasks and runs the first one up to the computed response. -/
def workOnce : List Act :=
  [.worker .retrieve, .worker .collect, .worker .start, .worker .input]

/-- The worker publishes the response. -/
def answer : List Act := [.worker .publish, .worker .notify]

/-- The loop wakes up for a message and writes it. -/
def writeOnce : List Act :=
  [.loop .next, .loop (.poll false false), .loop .next, .loop .next, .loop (.write true)]

end Listener

end CPlayground.Monitor
