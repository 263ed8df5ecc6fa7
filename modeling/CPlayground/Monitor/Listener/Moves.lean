import CPlayground.Monitor.Listener.Model

namespace CPlayground.Monitor.Listener

/-!
# What a step of the `Listener` can do

The transitions of the three threads and of their callers, one constructor per branch of the step
functions; every invariant of the listener is proved by cases on them.
-/

variable {s s' : Listener}

/-- Transitions of the loop that change nothing but its position. -/
inductive Advance (s : Listener) : LoopPc → LoopPc → Prop where
  | entered (all : Bool) : Advance s .top (.polling all)
  | interrupted (all : Bool) : Advance s (.polling all) .top
  | pollError (all : Bool) : Advance s (.polling all) .exited
  | closuresDone : Advance s (.closures []) .checkTerminated
  | writingDone : Advance s (.writing []) .checkTerminated
  | terminated (h : s.state = .TERMINATED) : Advance s .checkTerminated .exited
  | alive (h : s.state ≠ .TERMINATED) : Advance s .checkTerminated .connecting
  | noPeer : Advance s .connecting (.checkReadable false)
  | readable (deferred : Bool) (h : s.state = .WORK) :
      Advance s (.checkReadable deferred) (.reading deferred)
  | unreadable (deferred : Bool) : Advance s (.checkReadable deferred) (.endIteration deferred)

/-- Where the loop goes after it has read the counter. -/
inductive Decoded (ev : Nat) : LoopPc → Prop where
  | large (h : kNotifyLarge ≤ ev) : Decoded ev .exited
  | medium (h : kNotifyMedium ≤ ev) (hlt : ev < kNotifyLarge) : Decoded ev .swapClosures
  | small (h : ev < kNotifyMedium) : Decoded ev .swapMsgs
  | nothing (h : ev = 0) : Decoded ev .checkTerminated

/-- The transitions of the loop. -/
inductive LoopMove (s : Listener) : LoopAct → Listener → Prop where
  | advanced (a : LoopAct) (pc : LoopPc) (hpc : Advance s s.loop pc) :
      LoopMove s a { s with loop := pc }
  | polled (active positive all : Bool) (pc : LoopPc) (hpc : s.loop = .polling all)
      (hnext : pc = .retrieving ∨ pc = .checkTerminated) :
      LoopMove s (.poll active positive)
        { s with active := active, positive := if all then positive else s.positive, loop := pc }
  | retrieved (pc : LoopPc) (hpc : s.loop = .retrieving) (hev : Decoded s.msghub.value pc) :
      LoopMove s .next { s with msghub := .new, loop := pc }
  | swappedClosures (hpc : s.loop = .swapClosures) :
      LoopMove s .next { s with closures := [], loop := .closures s.closures }
  | ranClosure (fn : Closure) (todo : List Closure) (hpc : s.loop = .closures (fn :: todo)) :
      LoopMove s .next { s with state := if fn = .terminate then .TERMINATED else s.state,
                                executed := s.executed ++ [fn], loop := .closures todo }
  | swappedMsgs (hpc : s.loop = .swapMsgs) :
      LoopMove s .next { s with msgs := [], handed := s.handed ++ s.msgs, loop := .writing s.msgs }
  | wrote (msg : Message) (todo : List Message) (c : Conn) (hpc : s.loop = .writing (msg :: todo))
      (hpeer : s.peer = some c) :
      LoopMove s (.write true)
        { s with written := s.written ++ [(c, msg)],
                 metrics := { s.metrics with ops := countResponse s.metrics.ops msg },
                 loop := .writing todo }
  | writeFailed (ok : Bool) (msg : Message) (todo : List Message)
      (hpc : s.loop = .writing (msg :: todo)) :
      LoopMove s (.write ok) { s.onDisconnect with loop := .checkTerminated }
  | acceptFailed (hpc : s.loop = .connecting) :
      LoopMove s (.accept none) { s with peerfd := -1, loop := .top }
  | accepted (fd : Int) (hpc : s.loop = .connecting) (hfd : 0 ≤ fd)
      (hfresh : fd ∉ s.fds.map Prod.fst) :
      LoopMove s (.accept (some fd))
        { s with peerfd := fd, positivefd := fd,
                 metrics := { s.metrics with times := s.metrics.times + 1 },
                 fds := (fd, s.accepted) :: s.fds, accepted := s.accepted + 1,
                 loop := .checkReadable true }
  | readFailed (deferred : Bool) (stream : List UInt8) (now : UInt64)
      (hpc : s.loop = .reading deferred) :
      LoopMove s (.read stream now) { s.onDisconnect with loop := .endIteration deferred }
  | handled (deferred : Bool) (stream : List UInt8) (now : UInt64) (c : Conn)
      (hpc : s.loop = .reading deferred) (hpeer : s.peer = some c)
      (hok : (MsgRaw.fresh.read stream).ok = true) :
      LoopMove s (.read stream now) (s.handle deferred c (MsgRaw.fresh.read stream).msg now)
  | pushed (deferred : Bool) (r : Request) (w : TaskRunner Request)
      (hpc : s.loop = .posting deferred r) (hw : TaskRunner.Move s.worker (.push 0 ⟨some r⟩) w) :
      LoopMove s .next { s with worker := w, loop := .posted deferred }
  | notified (deferred : Bool) (w : TaskRunner Request) (hpc : s.loop = .posted deferred)
      (hw : TaskRunner.Move s.worker (.notify 0) w) :
      LoopMove s .next { s with worker := w, loop := .endIteration deferred }
  | complained (deferred : Bool) (hpc : s.loop = .unpackError deferred) :
      LoopMove s .next { s.append invalidMessage none with loop := .published deferred }
  | complaintNotified (deferred : Bool) (hpc : s.loop = .published deferred) :
      LoopMove s .next { s with msghub := ⟨kNotifySmall :: s.msghub.unread⟩,
                                loop := .endIteration deferred }
  | ended (deferred : Bool) (hpc : s.loop = .endIteration deferred) :
      LoopMove s .next { s with state := if deferred then .WORK else s.state, loop := .top }

/-- The transitions of the worker thread. -/
inductive WorkerMove (s : Listener) : WorkerAct → Listener → Prop where
  | runner (a : WorkerAct) (b : TaskRunner.Act Request) (w : TaskRunner Request)
      (hb : b = .interrupted ∨ b = .retrieve ∨ b = .collect ∨ b = .rest ∨ b = .stop)
      (hw : TaskRunner.Move s.worker b w) : WorkerMove s a { s with worker := w }
  | started (r : Request) (todo : List Request) (hready : s.work = .ready)
      (hrun : s.worker.run = .running (r :: todo)) :
      WorkerMove s .start
        { s with worker := { s.worker with run := .running todo, ran := s.worker.ran ++ [r] },
                 work := .started r }
  | inputRead (r : Request) (hpc : s.work = .started r) :
      WorkerMove s .input
        { s with works := s.works ++ [(r, s.r.msgreq)], timeout := nextTimeout s.timeout,
                 work := .computed r (response (nextTimeout s.timeout)) }
  | published (r : Request) (raw : MsgRaw) (hpc : s.work = .computed r raw) :
      WorkerMove s .publish { s.append raw (some r) with work := .published }
  | notified (hpc : s.work = .published) :
      WorkerMove s .notify { s with msghub := ⟨kNotifySmall :: s.msghub.unread⟩, work := .ready }

/-- The transitions of the timer thread. -/
inductive PingMove (s : Listener) : PingAct → Listener → Prop where
  | idle (now : UInt64) (hpc : s.ping = .outside) (hidle : s.state = .IDLE) :
      PingMove s (.test now)
        { s with metrics := { s.metrics with idle := s.metrics.idle + HEARTBEAT_DURATION } }
  | tested (now : UInt64) (h : Heartbeat) (pc : PingPc) (hpc : s.ping = .outside)
      (hbusy : s.state ≠ .IDLE)
      (hnext : pc = .outside ∨ pc = .disconnecting ∨ ∃ raw, pc = .publishing raw) :
      PingMove s (.test now)
        { s with metrics := { s.metrics with work := s.metrics.work + HEARTBEAT_DURATION },
                 heartbeat := h, ping := pc }
  | disconnected (hpc : s.ping = .disconnecting) :
      PingMove s .disconnect { s.onDisconnect with ping := .outside }
  | published (raw : MsgRaw) (hpc : s.ping = .publishing raw) :
      PingMove s .publish { s.append raw none with ping := .published }
  | notified (hpc : s.ping = .published) :
      PingMove s .notify { s with msghub := ⟨kNotifySmall :: s.msghub.unread⟩, ping := .outside }

/-- The transitions of the whole system; those of the three threads are the relations above. -/
inductive Move (s : Listener) : Act → Listener → Prop where
  | loop (a : LoopAct) (s' : Listener) (h : LoopMove s a s') : Move s (.loop a) s'
  | worker (a : WorkerAct) (s' : Listener) (h : WorkerMove s a s') : Move s (.worker a) s'
  | ping (a : PingAct) (s' : Listener) (h : PingMove s a s') : Move s (.ping a) s'
  | pub (k : Tid) (raw : MsgRaw) :
      Move s (.pub k raw) { s.append raw none with pubs := k :: s.pubs }
  | pubNotified (k : Tid) (hk : k ∈ s.pubs) :
      Move s (.pubNotify k) { s with msghub := ⟨kNotifySmall :: s.msghub.unread⟩,
                                     pubs := s.pubs.erase k }
  | ignored (k : Tid) : Move s (.runOnLoop k none) s
  | submitted (k : Tid) (fn : Closure) :
      Move s (.runOnLoop k (some fn))
        { s with closures := s.closures ++ [fn], submitted := s.submitted ++ [fn],
                 submits := k :: s.submits }
  | submitNotified (k : Tid) (hk : k ∈ s.submits) :
      Move s (.runOnLoopNotify k) { s with msghub := ⟨kNotifyMedium :: s.msghub.unread⟩,
                                           submits := s.submits.erase k }
  | quit : Move s .quit { s with msghub := ⟨kNotifyLarge :: s.msghub.unread⟩ }

/-! ### Every enabled step is one of the transitions -/

/-- A notification that does not block is added to the unread ones. -/
theorem notifyHub_eq_some {event : Nat} (h : s.notifyHub event = some s') :
    s' = { s with msghub := ⟨event :: s.msghub.unread⟩ } := by
  simp only [notifyHub, Option.map_eq_some_iff, Notifier.notify_eq_some] at h
  obtain ⟨n, ⟨-, rfl⟩, rfl⟩ := h
  rfl

/-- Where `next` leads from each position: what the loop does there by itself, without the outcome
    of a call. -/
theorem loopMove_of_next (h : s.stepLoop .next = some s') : LoopMove s .next s' := by
  simp only [stepLoop] at h
  -- one case for each position of the loop, in the order of the definition
  split at h
  · rename_i hpc
    cases h
    exact .advanced _ _ (hpc ▸ .entered _)
  · rename_i hpc
    cases h
    refine .retrieved _ hpc ?_
    show Decoded s.msghub.value _
    -- the three thresholds of the event, from the largest on
    split
    · exact .large ‹_›
    · rename_i hlarge
      split
      · exact .medium ‹_› (not_le.mp hlarge)
      · rename_i hmed
        split
        · exact .small (not_le.mp hmed)
        · rename_i hsmall
          exact .nothing (Nat.lt_one_iff.mp (not_le.mp hsmall))
  · rename_i hpc
    cases h
    exact .swappedClosures hpc
  · rename_i fn todo hpc
    cases h
    exact .ranClosure fn todo hpc
  · rename_i hpc
    cases h
    exact .advanced _ _ (hpc ▸ .closuresDone)
  · rename_i hpc
    cases h
    exact .swappedMsgs hpc
  · rename_i hpc
    cases h
    exact .advanced _ _ (hpc ▸ .writingDone)
  · rename_i hpc
    cases h
    refine .advanced _ _ ?_
    rw [hpc]
    split
    · exact .terminated ‹_›
    · exact .alive ‹_›
  -- without a peer that connects the loop goes on; with one it has to `accept`
  · rename_i hpc
    split at h <;> cases h
    exact .advanced _ _ (hpc ▸ .noPeer)
  · rename_i deferred hpc
    cases h
    refine .advanced _ _ ?_
    rw [hpc]
    split
    · rename_i hread
      exact .readable _ hread.1
    · exact .unreadable _
  · rename_i deferred r hpc
    obtain ⟨w, hw, rfl⟩ := Option.map_eq_some_iff.mp h
    exact .pushed deferred r w hpc (TaskRunner.move_of_step hw)
  · rename_i deferred hpc
    obtain ⟨w, hw, rfl⟩ := Option.map_eq_some_iff.mp h
    exact .notified deferred w hpc (TaskRunner.move_of_step hw)
  · rename_i deferred hpc
    cases h
    exact .complained deferred hpc
  · rename_i deferred hpc
    obtain ⟨u, hu, rfl⟩ := Option.map_eq_some_iff.mp h
    rw [notifyHub_eq_some hu]
    exact .complaintNotified deferred hpc
  · rename_i deferred hpc
    cases h
    exact .ended deferred hpc
  · cases h

/-- **What a step of the loop can do**, branch by branch; the invariants never unfold `stepLoop`. -/
theorem loopMove_of_step {a : LoopAct} (h : s.stepLoop a = some s') : LoopMove s a s' := by
  cases a with
  | next => exact loopMove_of_next h
  | poll active positive =>
    simp only [stepLoop] at h
    split at h <;> cases h
    rename_i all hpc
    refine .polled active positive all _ hpc ?_
    split
    · exact .inl rfl
    · exact .inr rfl
  | interrupted =>
    simp only [stepLoop] at h
    split at h <;> cases h
    rename_i all hpc
    exact .advanced _ _ (hpc ▸ .interrupted all)
  | pollError =>
    simp only [stepLoop] at h
    split at h <;> cases h
    rename_i all hpc
    exact .advanced _ _ (hpc ▸ .pollError all)
  | write ok =>
    simp only [stepLoop] at h
    split at h
    · rename_i msg todo hpc
      -- without a peer, or after an error, the rest of the batch is dropped
      split at h <;> cases h
      · rename_i c hpeer
        exact .wrote msg todo c hpc hpeer
      · exact .writeFailed _ msg todo hpc
    · cases h
  | accept fd =>
    simp only [stepLoop] at h
    split at h
    · rename_i hpc
      simp only [Option.ite_none_right_eq_some] at h
      obtain ⟨-, h⟩ := h
      cases fd with
      | none =>
        cases h
        exact .acceptFailed hpc
      | some fd =>
        simp only [Option.ite_none_right_eq_some] at h
        obtain ⟨⟨hfd, hfresh⟩, h⟩ := h
        cases h
        exact .accepted fd hpc hfd hfresh
    · cases h
  | read stream now =>
    simp only [stepLoop] at h
    split at h
    · rename_i deferred hpc
      -- what comes from the peer is a message, or reading it fails
      split at h
      · rename_i c hpeer
        split at h <;> cases h
        · rename_i hok
          exact .handled deferred stream now c hpc hpeer hok
        · exact .readFailed deferred stream now hpc
      · cases h
        exact .readFailed deferred stream now hpc
    · cases h

/-- A step of the worker's own loop. -/
theorem workerMove_of_runner {a : WorkerAct} {b : TaskRunner.Act Request}
    (hb : b = .interrupted ∨ b = .retrieve ∨ b = .collect ∨ b = .rest ∨ b = .stop)
    (h : s.stepRunner b = some s') : WorkerMove s a s' := by
  obtain ⟨w, hw, rfl⟩ := Option.map_eq_some_iff.mp h
  exact .runner a b w hb (TaskRunner.move_of_step hw)

/-- **What a step of the worker can do**: those of its runner, and those of the task that it
    runs. -/
theorem workerMove_of_step {a : WorkerAct} (h : s.stepWorker a = some s') : WorkerMove s a s' := by
  cases a with
  | interrupted => exact workerMove_of_runner (.inl rfl) h
  | retrieve => exact workerMove_of_runner (.inr (.inl rfl)) h
  | collect => exact workerMove_of_runner (.inr (.inr (.inl rfl))) h
  | start =>
    simp only [stepWorker] at h
    split at h
    -- the worker takes the first request of its batch
    · rename_i r todo hready hrun
      obtain ⟨w, hw, rfl⟩ := Option.map_eq_some_iff.mp h
      simp only [TaskRunner.step, hrun] at hw
      cases hw
      exact .started r todo hready hrun
    · cases h
  | input =>
    simp only [stepWorker] at h
    split at h <;> cases h
    rename_i r hpc
    exact .inputRead r hpc
  | publish =>
    simp only [stepWorker] at h
    split at h <;> cases h
    rename_i r raw hpc
    exact .published r raw hpc
  | notify =>
    simp only [stepWorker] at h
    split at h
    · rename_i hpc
      obtain ⟨u, hu, rfl⟩ := Option.map_eq_some_iff.mp h
      rw [notifyHub_eq_some hu]
      exact .notified hpc
    · cases h
  | rest =>
    simp only [stepWorker] at h
    split at h
    · exact workerMove_of_runner (.inr (.inr (.inr (.inl rfl)))) h
    · cases h
  | stop => exact workerMove_of_runner (.inr (.inr (.inr (.inr rfl)))) h

/-- **What a step of the timer thread can do**: a `Ping` tests the peer, disconnects it, or
    publishes a heartbeat. -/
theorem pingMove_of_step {a : PingAct} (h : s.stepPing a = some s') : PingMove s a s' := by
  cases a with
  | test now =>
    simp only [stepPing] at h
    split at h
    · rename_i hpc
      -- `Ping` does nothing while nobody is connected, and else follows the verdict of the
      -- heartbeat
      split at h <;> cases h
      · rename_i hidle
        exact .idle now hpc hidle
      · rename_i hbusy
        refine .tested now _ _ hpc hbusy ?_
        split
        · exact .inl rfl
        · exact .inr (.inl rfl)
        · exact .inr (.inr ⟨_, rfl⟩)
    · cases h
  | disconnect =>
    simp only [stepPing] at h
    split at h <;> cases h
    rename_i hpc
    exact .disconnected hpc
  | publish =>
    simp only [stepPing] at h
    split at h <;> cases h
    rename_i raw hpc
    exact .published raw hpc
  | notify =>
    simp only [stepPing] at h
    split at h
    · rename_i hpc
      obtain ⟨u, hu, rfl⟩ := Option.map_eq_some_iff.mp h
      rw [notifyHub_eq_some hu]
      exact .notified hpc
    · cases h

/-- **The inversion lemma**: every step is a move of one of the three threads or of their
    callers. -/
theorem move_of_step {a : Act} (h : s.step a = some s') : Move s a s' := by
  cases a with
  | loop a => exact .loop a s' (loopMove_of_step h)
  | worker a => exact .worker a s' (workerMove_of_step h)
  | ping a => exact .ping a s' (pingMove_of_step h)
  | pub k raw =>
    simp only [step, Option.ite_none_left_eq_some] at h
    obtain ⟨-, h⟩ := h
    cases h
    exact .pub k raw
  | pubNotify k =>
    simp only [step, Option.ite_none_right_eq_some, Option.map_eq_some_iff] at h
    obtain ⟨hk, u, hu, rfl⟩ := h
    rw [notifyHub_eq_some hu]
    exact .pubNotified k hk
  | runOnLoop k closure =>
    simp only [step, Option.ite_none_left_eq_some] at h
    obtain ⟨-, h⟩ := h
    cases closure with
    | none =>
      cases h
      exact .ignored k
    | some fn =>
      cases h
      exact .submitted k fn
  | runOnLoopNotify k =>
    simp only [step, Option.ite_none_right_eq_some, Option.map_eq_some_iff] at h
    obtain ⟨hk, u, hu, rfl⟩ := h
    rw [notifyHub_eq_some hu]
    exact .submitNotified k hk
  | quit =>
    rw [notifyHub_eq_some h]
    exact .quit

end CPlayground.Monitor.Listener
