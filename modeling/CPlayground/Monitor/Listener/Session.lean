import CPlayground.Monitor.Listener.Moves

namespace CPlayground.Monitor.Listener

open CPlayground.Trace

/-!
# `Listener`: session isolation

A request travels from the loop through the worker's deque to `Listener::Work`, and its response
through `w.msgs` back to the loop, which writes it to whatever `peerfd` is by then.  `onDisconnect`
forgets the reader's, the heartbeat's and the metrics' data of the session, but not these queues.

* `listener_session_isolation` — responses reach the connection their request came from, provided
  that a peer is accepted only when no request or response of an earlier one is under way
  (`Drained`).
* `response_crosses_sessions` — otherwise a response is written to the next peer.
-/

/-! ### The invariant -/

/-- The requests that the position of the loop holds, or holds responses of. -/
def LoopPc.requests : LoopPc → List Request
  | .posting _ r => [r]
  | .writing todo => todo.filterMap Message.origin
  | _ => []

/-- The request `Work` is processing. -/
def WorkPc.requests : WorkPc → List Request
  | .started r | .computed r _ => [r]
  | _ => []

/-- Request `r` is somewhere between its receipt and the write of its response. -/
def InFlight (s : Listener) (r : Request) : Prop :=
  r ∈ s.loop.requests ∨ r ∈ s.worker.waiting ∨ r ∈ s.work.requests ∨
    r ∈ s.msgs.filterMap Message.origin

/-- What is under way belongs to the connection accepted last, and so does `peerfd`; and what was
    written went to the connection of its request. -/
structure Isolated (s : Listener) : Prop where
  current : ∀ r, InFlight s r → r.conn + 1 = s.accepted
  peer : ∀ c, s.peer = some c → c + 1 = s.accepted
  fds_nonneg : ∀ p ∈ s.fds, 0 ≤ p.1
  written : ∀ p ∈ s.written, ∀ r, p.2.origin = some r → r.conn = p.1

/-- A peer is accepted only when the worker has nothing to do and no response of `Work` waits to be
    written. -/
def Drained (s : Listener) : Act → Prop
  | .loop (.accept (some _)) =>
    s.worker.waiting = [] ∧ s.work.requests = [] ∧ s.msgs.filterMap Message.origin = []
  | _ => True

instance decidableDrained (s : Listener) : (a : Act) → Decidable (Drained s a)
  | .loop (.accept (some _)) => inferInstanceAs (Decidable (_ ∧ _ ∧ _))
  | .loop (.accept none) | .loop .next | .loop (.poll ..) | .loop .interrupted | .loop .pollError
  | .loop (.write _) | .loop (.read ..) | .worker _ | .ping _ | .pub .. | .pubNotify _
  | .runOnLoop .. | .runOnLoopNotify _ | .quit => .isTrue trivial

variable {s s' : Listener}

/-- No request was read. -/
theorem isolated_init : Isolated init where
  current := by
    intro r hr
    simp [InFlight, init, LoopPc.requests, WorkPc.requests, TaskRunner.waiting, TaskRunner.batch,
      TaskRunner.init] at hr
  peer := by simp [init, Listener.peer]
  fds_nonneg := by simp [init]
  written := by simp [init]

/-! ### Lemmas -/

/-- The data of the connections, with what was written to them. -/
def sessions (s : Listener) := (s.peerfd, s.fds, s.accepted, s.written)

/-- A request in the worker's deque is under way. -/
theorem inFlight_worker {r : Request} (h : r ∈ s.worker.waiting) : InFlight s r := .inr (.inl h)

/-- So is one that `Work` has in hand. -/
theorem inFlight_work {r : Request} (h : r ∈ s.work.requests) : InFlight s r := .inr (.inr (.inl h))

/-- So is one whose response is in a message. -/
theorem inFlight_msgs {r : Request} (h : r ∈ s.msgs.filterMap Message.origin) : InFlight s r :=
  .inr (.inr (.inr h))

/-- A step that puts nothing new under way and leaves the connections alone. -/
theorem Isolated.frame (h : Isolated s) (hs : s'.sessions = s.sessions)
    (hin : ∀ r, InFlight s' r → InFlight s r) : Isolated s' := by
  simp only [sessions, Prod.mk.injEq] at hs
  obtain ⟨hpeerfd, hfds, hacc, hwritten⟩ := hs
  have hpeer : s'.peer = s.peer := by rw [Listener.peer, Listener.peer, hfds, hpeerfd]
  refine ⟨?_, ?_, ?_, ?_⟩
  · rw [hacc]
    exact fun r hr => h.current r (hin r hr)
  · rw [hacc, hpeer]
    exact h.peer
  · rw [hfds]
    exact h.fds_nonneg
  · rw [hwritten]
    exact h.written

/-- The queues that requests and responses travel through. -/
def pipeline (s : Listener) := (s.worker, s.work, s.msgs)

/-- The loop moves on to a position that holds no new request, and the queues are left alone. -/
theorem InFlight.of_pipeline {r : Request} (hr : InFlight s' r) (hp : s'.pipeline = s.pipeline)
    (hloop : s'.loop.requests ⊆ s.loop.requests) : InFlight s r := by
  simp only [pipeline, Prod.mk.injEq] at hp
  obtain ⟨hworker, hwork, hmsgs⟩ := hp
  rw [InFlight, hworker, hwork, hmsgs] at hr
  rcases hr with hr | hr
  · exact .inl (hloop hr)
  · exact .inr hr

/-- A step that leaves connections and queues alone. -/
theorem Isolated.quiet (h : Isolated s) (hs : s'.sessions = s.sessions)
    (hp : s'.pipeline = s.pipeline) (hloop : s'.loop.requests ⊆ s.loop.requests) : Isolated s' :=
  h.frame hs fun _ hr => hr.of_pipeline hp hloop

/-- `-1` is never an accepted descriptor. -/
theorem lookup_neg_one (h : Isolated s) : s.fds.lookup (-1) = none := by
  rw [List.lookup_eq_none_iff]
  intro p hp
  have hnonneg := h.fds_nonneg p hp
  rw [bne_iff_ne]
  omega

/-- The peer is gone, by `onDisconnect` or by a failed `accept`; what is under way still belongs to
    the one accepted last. -/
theorem Isolated.leave (h : Isolated s) (hpeerfd : s'.peerfd = -1) (hfds : s'.fds ⊆ s.fds)
    (hacc : s'.accepted = s.accepted) (hwritten : s'.written = s.written)
    (hp : s'.pipeline = s.pipeline) (hloop : s'.loop.requests ⊆ s.loop.requests) :
    Isolated s' := by
  refine ⟨?_, ?_, fun p hp => h.fds_nonneg p (hfds hp), ?_⟩
  · rw [hacc]
    exact fun r hr => h.current r (hr.of_pipeline hp hloop)
  · intro c hc
    have hnone : s'.fds.lookup (-1) = none := by
      rw [List.lookup_eq_none_iff]
      exact fun p hp => List.lookup_eq_none_iff.mp (lookup_neg_one h) p (hfds hp)
    rw [Listener.peer, hpeerfd, hnone] at hc
    cases hc
  · rw [hwritten]
    exact h.written

/-- A message that is no response of `Work` is published. -/
theorem Isolated.publish (h : Isolated s) (raw : MsgRaw) (hs : s'.sessions = s.sessions)
    (hp : s'.pipeline = (s.append raw none).pipeline)
    (hloop : s'.loop.requests ⊆ s.loop.requests) : Isolated s' := by
  refine h.frame hs fun r hr => ?_
  have hr' := hr.of_pipeline hp hloop
  rw [InFlight, append, List.filterMap_append] at hr'
  simpa [InFlight] using hr'

/-! ### Every step keeps the invariant -/

/-- The request that was read belongs to the peer that is served, which is the one accepted last. -/
theorem isolated_handled {d : Bool} (h : Isolated s) {c : Conn} (hpeer : s.peer = some c)
    (raw : MsgRaw) (now : UInt64) : Isolated (s.handle d c raw now) := by
  unfold handle
  split
  · split
    · -- a request is accepted from the current peer
      rename_i m rest hunpack
      refine ⟨?_, h.peer, h.fds_nonneg, h.written⟩
      rintro r (hr | hr)
      · rw [List.mem_singleton.mp hr]
        exact h.peer c hpeer
      · exact h.current r (.inr hr)
    · exact h.quiet rfl rfl (List.nil_subset _)
  · split
    · split <;> exact h.quiet rfl rfl (List.nil_subset _)
    · exact h.quiet rfl rfl (List.nil_subset _)

/-- **A new peer** finds nothing under way that belongs to another one: this is what the condition
    on `accept` is for. -/
theorem isolated_accepted {fd : Int} (h : Isolated s) (hd : Drained s (.loop (.accept (some fd))))
    (hfd : 0 ≤ fd) :
    Isolated { s with peerfd := fd, positivefd := fd,
                      metrics := { s.metrics with times := s.metrics.times + 1 },
                      fds := (fd, s.accepted) :: s.fds, accepted := s.accepted + 1,
                      loop := .checkReadable true } := by
  obtain ⟨hworker, hwork, hmsgs⟩ := hd
  refine ⟨?_, ?_, ?_, h.written⟩
  · -- nothing is under way
    intro r hr
    simp [InFlight, LoopPc.requests, hworker, hwork, hmsgs] at hr
  · intro c hc
    have hlook : List.lookup fd ((fd, s.accepted) :: s.fds) = some c := hc
    rw [List.lookup_cons_self, Option.some.injEq] at hlook
    rw [← hlook]
  · intro p hp
    rcases List.mem_cons.mp hp with rfl | hp
    · exact hfd
    · exact h.fds_nonneg p hp

/-- A response is written: it and the peer both belong to the connection accepted last. -/
theorem isolated_wrote {msg : Message} {todo : List Message} {c : Conn} (h : Isolated s)
    (hpc : s.loop = .writing (msg :: todo)) (hpeer : s.peer = some c) :
    Isolated { s with written := s.written ++ [(c, msg)],
                      metrics := { s.metrics with ops := countResponse s.metrics.ops msg },
                      loop := .writing todo } := by
  have hloop : s.loop.requests = (msg :: todo).filterMap Message.origin := by rw [hpc]; rfl
  refine ⟨?_, h.peer, h.fds_nonneg, ?_⟩
  · intro r hr
    refine h.current r (hr.of_pipeline rfl ?_)
    rw [hloop]
    exact ((List.sublist_cons_self msg todo).filterMap _).subset
  · intro p hp r hr
    rcases List.mem_append.mp hp with hp | hp
    · exact h.written p hp r hr
    · rw [List.mem_singleton.mp hp] at hr ⊢
      have hmem : r ∈ s.loop.requests := by
        rw [hloop]
        exact List.mem_filterMap.mpr ⟨msg, List.mem_cons_self, hr⟩
      have hcur := h.current r (.inl hmem)
      have hlast := h.peer c hpeer
      exact Nat.succ_injective (hcur.trans hlast.symm)

/-- A step of the loop keeps the sessions apart: it writes to the peer that is served, and passes
    its requests on. -/
theorem isolated_loop {a : LoopAct} (h : Isolated s) (hd : Drained s (.loop a))
    (hm : LoopMove s a s') : Isolated s' := by
  have hnil : ∀ l : List Request, [] ⊆ l := fun l => List.nil_subset l
  cases hm with
  -- the loop goes on without a request
  | advanced a pc hpc =>
    have hpc' : pc.requests = [] := by
      generalize s.loop = l at hpc
      cases hpc <;> rfl
    exact h.quiet rfl rfl (by rw [hpc']; exact hnil _)
  | polled active positive all pc hpc hnext =>
    rcases hnext with rfl | rfl <;> exact h.quiet rfl rfl (hnil _)
  | retrieved pc hpc hev => cases hev <;> exact h.quiet rfl rfl (hnil _)
  | swappedClosures | ranClosure | complaintNotified | ended => exact h.quiet rfl rfl (hnil _)
  -- the messages go from the queue to the loop
  | swappedMsgs hpc =>
    refine h.frame rfl ?_
    rintro r (hr | hr | hr | hr)
    · exact inFlight_msgs hr
    · exact inFlight_worker hr
    · exact inFlight_work hr
    · cases hr
  | wrote msg todo c hpc hpeer => exact isolated_wrote h hpc hpeer
  -- the peer is disconnected: nothing new is under way
  | writeFailed | readFailed =>
    exact h.leave rfl (fun p hp => List.mem_of_mem_filter hp) rfl rfl rfl (hnil _)
  | acceptFailed hpc => exact h.leave rfl (List.Subset.refl _) rfl rfl rfl (hnil _)
  | accepted fd hpc hfd hfresh => exact isolated_accepted h hd hfd
  | handled d stream now c hpc hpeer hok => exact isolated_handled h hpeer _ now
  -- the request goes from the loop to the runner
  | pushed d r w hpc hw =>
    refine h.frame rfl ?_
    rintro r' (hr | hr | hr | hr)
    · cases hr
    · rcases TaskRunner.mem_waiting_of_move hw hr with hr | ⟨tid, heq⟩
      · exact inFlight_worker hr
      · cases heq
        refine .inl ?_
        rw [hpc]
        exact List.mem_singleton_self _
    · exact inFlight_work hr
    · exact inFlight_msgs hr
  | notified d w hpc hw =>
    refine h.frame rfl ?_
    rintro r' (hr | hr | hr | hr)
    · cases hr
    · rcases TaskRunner.mem_waiting_of_move hw hr with hr | ⟨tid, heq⟩
      · exact inFlight_worker hr
      · cases heq
    · exact inFlight_work hr
    · exact inFlight_msgs hr
  | complained d hpc => exact h.publish invalidMessage rfl rfl (hnil _)

/-- So does a step of the worker, which only moves requests on. -/
theorem isolated_worker {a : WorkerAct} (h : Isolated s) (hm : WorkerMove s a s') :
    Isolated s' := by
  cases hm with
  | runner a b w hb hw =>
    refine h.frame rfl ?_
    rintro r (hr | hr | hr | hr)
    · exact .inl hr
    · rcases TaskRunner.mem_waiting_of_move hw hr with hr | ⟨tid, rfl⟩
      · exact inFlight_worker hr
      · rcases hb with hb | hb | hb | hb | hb <;> cases hb
    · exact inFlight_work hr
    · exact inFlight_msgs hr
  | started r todo hready hrun =>
    -- the request moves from the batch to `Work`
    have hwait : s.worker.waiting = r :: (todo ++ s.worker.tasks) := by
      simp [TaskRunner.waiting, TaskRunner.batch, hrun]
    refine h.frame rfl ?_
    rintro r' (hr | hr | hr | hr)
    · exact .inl hr
    · exact inFlight_worker (hwait ▸ List.mem_cons_of_mem r hr)
    · rw [List.mem_singleton.mp hr]
      exact inFlight_worker (hwait ▸ List.mem_cons_self)
    · exact inFlight_msgs hr
  | inputRead r hpc =>
    refine h.frame rfl ?_
    rintro r' (hr | hr | hr | hr)
    · exact .inl hr
    · exact inFlight_worker hr
    · exact inFlight_work (by rw [hpc]; exact hr)
    · exact inFlight_msgs hr
  | published r raw hpc =>
    refine h.frame rfl ?_
    rintro r' (hr | hr | hr | hr)
    · exact .inl hr
    · exact inFlight_worker hr
    · cases hr
    · -- the response takes the place of the request
      have hmem : r' ∈ (s.msgs ++ [Message.mk raw (some r)]).filterMap Message.origin := hr
      rw [List.filterMap_append, List.mem_append] at hmem
      rcases hmem with hr | hr
      · exact inFlight_msgs hr
      · exact inFlight_work (by rw [hpc]; exact hr)
  | notified hpc =>
    refine h.frame rfl ?_
    rintro r (hr | hr | hr | hr)
    · exact .inl hr
    · exact inFlight_worker hr
    · cases hr
    · exact inFlight_msgs hr

/-- **Every move keeps the sessions apart**, if peers are accepted when nothing is under way. -/
theorem isolated_move {a : Act} (h : Isolated s) (hd : Drained s a) (hm : Move s a s') :
    Isolated s' := by
  have hsame : s.loop.requests ⊆ s.loop.requests := List.Subset.refl _
  cases hm with
  | loop a s' hm => exact isolated_loop h hd hm
  | worker a s' hm => exact isolated_worker h hm
  | ping a s' hm =>
    cases hm with
    | idle | tested | notified => exact h.quiet rfl rfl hsame
    | disconnected hpc =>
      exact h.leave rfl (fun p hp => List.mem_of_mem_filter hp) rfl rfl rfl hsame
    | published raw hpc => exact h.publish raw rfl rfl hsame
  | pub k raw => exact h.publish raw rfl rfl hsame
  | ignored => exact h
  | pubNotified | submitted | submitNotified | quit => exact h.quiet rfl rfl hsame

/-! ### Whole runs -/

/-- **Session isolation.**  In every run in which a peer is accepted only while no request or
    response of `Work` is under way, a response that `Work` computed for a request is written only
    to the connection the request was read from. -/
theorem listener_session_isolation (acts : List Act) (s : Listener)
    (h : exec step init acts = some s) (hd : Along step Drained init acts) :
    ∀ p ∈ s.written, ∀ r, p.2.origin = some r → r.conn = p.1 :=
  (exec_invariant_along (fun _ _ _ hs ha hst => isolated_move hs ha (move_of_step hst))
    isolated_init hd h).written

/-- A request is answered within its session. -/
def answeredInSession : List Act :=
  acceptPeer 5 ++ readRequest 1 2 ++ workOnce ++ answer ++ writeOnce

/-- The peer leaves while `Work` runs, and the next peer is accepted before it publishes. -/
def answeredTooLate : List Act :=
  acceptPeer 5 ++ readRequest 1 2 ++ workOnce ++ readPeer [] ++ nexts 1 ++ acceptPeer 6 ++ answer ++
    writeOnce

/-- The response to a request reaches the peer that sent it. -/
theorem listener_session_isolation_one_request :
    ∃ s, exec step init answeredInSession = some s ∧
      (∃ p ∈ s.written, p.1 = 0 ∧ p.2.origin.isSome = true) ∧
      ∀ p ∈ s.written, ∀ r, p.2.origin = some r → r.conn = p.1 := by
  obtain ⟨s, hs, hp⟩ := exists_of_exec_any (s := init)
    (p := fun s => s.written.any fun p => decide (p.1 = 0) && p.2.origin.isSome)
    (show (exec step _ answeredInSession).any _ = true by decide +kernel)
  obtain ⟨p, hmem, hp⟩ := List.any_eq_true.mp hp
  rw [Bool.and_eq_true, decide_eq_true_eq] at hp
  exact ⟨s, hs, ⟨p, hmem, hp⟩, listener_session_isolation _ s hs (by decide +kernel)⟩

/-- **A response crosses sessions.**  The peer sends a request and leaves while `Work` runs; the
    next peer is accepted; the response to the first one's request is written to the second. -/
theorem response_crosses_sessions :
    ∃ s, exec step init answeredTooLate = some s ∧
      ∃ p ∈ s.written, p.2.raw.type = MSGRESPONSE ∧ p.1 = 1 ∧
        ∃ r, p.2.origin = some r ∧ r.conn = 0 := by
  obtain ⟨s, hs, hp⟩ := exists_of_exec_any (s := init)
    (p := fun s => s.written.any fun p => decide (p.2.raw.type = MSGRESPONSE ∧ p.1 = 1) &&
      p.2.origin.any fun r : Request => decide (r.conn = 0))
    (show (exec step _ answeredTooLate).any _ = true by decide +kernel)
  obtain ⟨p, hmem, hp⟩ := List.any_eq_true.mp hp
  rw [Bool.and_eq_true, decide_eq_true_eq, Option.any_eq_true] at hp
  obtain ⟨⟨htype, hconn⟩, r, hr, hzero⟩ := hp
  exact ⟨s, hs, p, hmem, htype, hconn, r, hr, of_decide_eq_true hzero⟩

end CPlayground.Monitor.Listener
