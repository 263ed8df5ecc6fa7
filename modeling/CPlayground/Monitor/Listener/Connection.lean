import CPlayground.Monitor.Listener.Moves

namespace CPlayground.Monitor.Listener

open CPlayground.Trace

/-!
# `Listener`: the connection invariant

The state word, `peerfd`, `positivepfd.fd` and the open descriptors change in `onConnect`, in
`onDisconnect` (called by the loop and by the timer thread) and at the end of an iteration.

* `listener_connection` — at the top of every iteration they agree, provided that `accept` is only
  called while no peer is served (`Orderly`).
* `second_peer_leaks` — a peer that arrives while another one is served replaces it, and the
  descriptor of the first one is never closed.
-/

/-! ### The invariant -/

/-- `switchstate` holds `onWork`. -/
def LoopPc.deferred : LoopPc → Bool
  | .checkReadable d | .reading d | .posting d _ | .posted d | .unpackError d | .published d
  | .endIteration d => d
  | _ => false

/-- The positions at which a closure may have set the state to `TERMINATED`. -/
def LoopPc.mayStop : LoopPc → Bool
  | .closures _ | .checkTerminated | .exited => true
  | _ => false

/-- The connection data agree with each other and with the positions of the threads: a peer is open
    exactly if `peerfd` is not -1, the state says whether it is served, and every earlier peer was
    closed once. -/
structure Connected (s : Listener) : Prop where
  closed_peer : s.peerfd = -1 → s.fds = []
  open_peer : s.peerfd ≠ -1 → (∃ c < s.accepted, s.fds = [(s.peerfd, c)]) ∧ s.positivefd = s.peerfd
  states : s.state = .IDLE ∨ s.state = .WORK ∨ s.state = .TERMINATED
  working : s.state = .WORK → s.peerfd ≠ -1
  -- the only time a peer is open in state `IDLE` is between `accept` and the end of the iteration
  idle : s.state = .IDLE → s.peerfd ≠ -1 → s.loop.deferred = true
  deferred : s.loop.deferred = true → s.state = .IDLE ∧ s.peerfd ≠ -1 ∧ s.ping ≠ .disconnecting
  reading : ∀ d, s.loop = .reading d → d = false
  stopping : s.state = .TERMINATED → s.loop.mayStop = true
  count_closed : ∀ c, s.closed.count c = if c < s.accepted ∧ s.peer ≠ some c then 1 else 0

/-- `accept` is called only while no peer is served, and succeeds only while no `Ping` stands
    between its verdict and its `onDisconnect`. -/
def Orderly (s : Listener) : Act → Prop
  | .loop (.accept fd) => s.state ≠ .WORK ∧ (fd ≠ none → s.ping ≠ .disconnecting)
  | _ => True

instance decidableOrderly (s : Listener) : (a : Act) → Decidable (Orderly s a)
  | .loop (.accept fd) =>
    inferInstanceAs (Decidable (s.state ≠ .WORK ∧ (fd ≠ none → s.ping ≠ .disconnecting)))
  | .loop .next | .loop (.poll ..) | .loop .interrupted | .loop .pollError | .loop (.write _)
  | .loop (.read ..) | .worker _ | .ping _ | .pub .. | .pubNotify _ | .runOnLoop ..
  | .runOnLoopNotify _ | .quit => .isTrue trivial

variable {s s' : Listener}

/-- Nobody is connected. -/
theorem connected_init : Connected init where
  closed_peer := fun _ => rfl
  open_peer := fun h => absurd rfl h
  states := .inl rfl
  working := by decide
  idle := fun _ h => absurd rfl h
  deferred := by decide
  reading := by simp [init]
  stopping := by decide
  count_closed := by simp [init]

/-- The connection data. -/
def connection (s : Listener) :=
  (s.state, s.peerfd, s.positivefd, s.fds, s.accepted, s.closed)

/-- A step that leaves the connection data alone, and moves the loop and the timer thread in a way
    the invariant allows. -/
theorem Connected.frame (h : Connected s) (hc : s'.connection = s.connection)
    (hdef : s'.loop.deferred = s.loop.deferred)
    (hping : s.state = .IDLE → s'.ping = .disconnecting → s.ping = .disconnecting)
    (hread : ∀ d, s'.loop = .reading d → d = false)
    (hstop : s.state = .TERMINATED → s'.loop.mayStop = true) : Connected s' := by
  simp only [connection, Prod.mk.injEq] at hc
  obtain ⟨hstate, hpeer, hpos, hfds, hacc, hclosed⟩ := hc
  -- the connection is the same, and the positions of the loop and of `Ping` agree with it as before
  refine ⟨?_, ?_, ?_, ?_, ?_, ?_, hread, ?_, ?_⟩
  · rw [hpeer, hfds]
    exact h.closed_peer
  · rw [hpeer, hfds, hacc, hpos]
    exact h.open_peer
  · rw [hstate]
    exact h.states
  · rw [hstate, hpeer]
    exact h.working
  · rw [hstate, hpeer, hdef]
    exact h.idle
  · rw [hstate, hpeer, hdef]
    intro hd
    obtain ⟨hidle, hopen, hno⟩ := h.deferred hd
    exact ⟨hidle, hopen, fun hp => hno (hping hidle hp)⟩
  · rw [hstate]
    exact hstop
  · have hp : s'.peer = s.peer := by rw [peer, peer, hfds, hpeer]
    rw [hclosed, hacc, hp]
    exact h.count_closed

/-- A step of another thread. -/
theorem Connected.other (h : Connected s) (hc : s'.connection = s.connection)
    (hloop : s'.loop = s.loop) (hping : s'.ping = s.ping) : Connected s' :=
  h.frame hc (by rw [hloop]) (fun _ hp => hping ▸ hp) (by rw [hloop]; exact h.reading)
    (by rw [hloop]; exact h.stopping)

/-- The state is not `TERMINATED` where no closure can have set it. -/
theorem Connected.alive (h : Connected s) {l : LoopPc} (hpc : s.loop = l)
    (hl : l.mayStop = false) : s.state ≠ .TERMINATED := by
  intro hterm
  have hstop := h.stopping hterm
  rw [hpc, hl] at hstop
  cases hstop

/-- The loop moves from a position where no closure can have stopped it to one before the read or
    after it. -/
theorem Connected.advance (h : Connected s) {l : LoopPc} (hpc : s.loop = l)
    (hl : l.mayStop = false) (hc : s'.connection = s.connection) (hping : s'.ping = s.ping)
    (hdef : s'.loop.deferred = l.deferred) (hread : ∀ d, s'.loop ≠ .reading d) : Connected s' :=
  h.frame hc (by rw [hpc]; exact hdef) (fun _ hp => hping ▸ hp)
    (fun d hd => absurd hd (hread d)) (fun hterm => absurd hterm (h.alive hpc hl))

/-! ### `onDisconnect` -/

/-- Without an open peer `onDisconnect` closes nothing, with one it closes the only descriptor. -/
theorem fds_onDisconnect (h : Connected s) : s.onDisconnect.fds = [] := by
  show s.fds.filter (fun p => p.1 ≠ s.peerfd) = []
  by_cases hp : s.peerfd = -1
  · rw [h.closed_peer hp, List.filter_nil]
  · obtain ⟨⟨c, -, hfds⟩, -⟩ := h.open_peer hp
    rw [hfds]
    simp

/-- `onDisconnect` closes the descriptor of the peer that is served, and every peer's once. -/
theorem count_onDisconnect (h : Connected s) (c : Conn) :
    s.onDisconnect.closed.count c = if c < s.accepted then 1 else 0 := by
  show (s.closed ++ s.peer.toList).count c = _
  rw [List.count_append, h.count_closed c]
  by_cases hp : s.peerfd = -1
  · have hnone : s.peer = none := by rw [peer, h.closed_peer hp]; rfl
    simp [hnone]
  · obtain ⟨⟨c', hlt, hfds⟩, -⟩ := h.open_peer hp
    have hsome : s.peer = some c' := by rw [peer, hfds]; simp
    rw [hsome]
    by_cases hc : c' = c
    · subst hc
      simp [hlt]
    · simp [hc]

/-- A disconnection, by the loop or by `Ping`, while no switch is deferred: the peer is closed for
    the first time, if there is one. -/
theorem Connected.disconnect (h : Connected s) (hc : s'.connection = s.onDisconnect.connection)
    (hdef : s'.loop.deferred = false) (hread : ∀ d, s'.loop = .reading d → d = false) :
    Connected s' := by
  simp only [connection, Prod.mk.injEq] at hc
  obtain ⟨hstate, hpeer, -, hfds, hacc, hclosed⟩ := hc
  have hstate : s'.state = .IDLE := hstate
  have hpeer : s'.peerfd = -1 := hpeer
  refine ⟨fun _ => hfds.trans (fds_onDisconnect h), fun hne => absurd hpeer hne, .inl hstate,
    (fun hw => nomatch hstate.symm.trans hw), fun _ hne => absurd hpeer hne,
    (fun hd => nomatch hdef.symm.trans hd), hread, (fun ht => nomatch hstate.symm.trans ht), ?_⟩
  intro c
  have hp : s'.peer = none := by rw [peer, hfds, fds_onDisconnect h]; rfl
  rw [hclosed, count_onDisconnect h, hacc, hp]
  show _ = if c < s.accepted ∧ none ≠ some c then 1 else 0
  simp

/-! ### Every step keeps the invariant -/

/-- The loop goes on without a change of the connection; only its place and what is deferred have to
    agree with the state. -/
theorem connected_advanced {pc : LoopPc} (h : Connected s) (hpc : Advance s s.loop pc) :
    Connected { s with loop := pc } := by
  generalize hloop : s.loop = l at hpc
  -- the transitions into positions where the state may be `TERMINATED`
  have hstop : pc.deferred = l.deferred → (∀ d, pc ≠ .reading d) → pc.mayStop = true →
      Connected { s with loop := pc } := fun hdef hread hmay =>
    h.frame rfl (by rw [hloop]; exact hdef) (fun _ hp => hp) (fun d hd => absurd hd (hread d))
      (fun _ => hmay)
  cases hpc with
  | entered | interrupted | noPeer | unreadable => exact h.advance hloop rfl rfl rfl rfl nofun
  | pollError | closuresDone | writingDone | terminated => exact hstop rfl nofun rfl
  | alive hne =>
    exact h.frame rfl (by rw [hloop]; rfl) (fun _ hp => hp) nofun (fun hterm => absurd hterm hne)
  | readable d hwork =>
    -- a deferred switch means that the state is still `IDLE`
    have hd : d = false := by
      by_contra hd
      have hidle := (h.deferred (by rw [hloop]; simpa [LoopPc.deferred] using hd)).1
      rw [hidle] at hwork
      cases hwork
    refine h.frame rfl (by rw [hloop]; rfl) (fun _ hp => hp) ?_ ?_
    · intro d' hd'
      cases hd'
      exact hd
    · exact fun hterm => absurd hterm (h.alive hloop rfl)

/-- Where the loop connects without serving a peer, there is none. -/
theorem idle_of_connecting (h : Connected s) (hpc : s.loop = .connecting)
    (hwork : s.state ≠ .WORK) :
    s.state = .IDLE ∧ s.peerfd = -1 := by
  have hidle : s.state = .IDLE := by
    rcases h.states with hs | hs | hs
    · exact hs
    · exact absurd hs hwork
    · exact absurd hs (h.alive hpc rfl)
  refine ⟨hidle, ?_⟩
  by_contra hp
  have hdef := h.idle hidle hp
  rw [hpc] at hdef
  cases hdef

/-- **A peer is accepted** while nobody is served; the switch to `WORK` is deferred to the end of
    the iteration. -/
theorem connected_accepted {fd : Int} (h : Connected s) (ho : Orderly s (.loop (.accept (some fd))))
    (hpc : s.loop = .connecting) (hfd : 0 ≤ fd) :
    Connected { s with peerfd := fd, positivefd := fd,
                       metrics := { s.metrics with times := s.metrics.times + 1 },
                       fds := (fd, s.accepted) :: s.fds, accepted := s.accepted + 1,
                       loop := .checkReadable true } := by
  obtain ⟨hwork, hping⟩ := ho
  -- nobody is connected: this is where `Orderly` is needed
  obtain ⟨hidle, hnone⟩ := idle_of_connecting h hpc hwork
  have hne : fd ≠ -1 := by omega
  have hfds := h.closed_peer hnone
  refine ⟨fun hp => absurd hp hne, fun _ => ⟨⟨s.accepted, Nat.lt_succ_self _, ?_⟩, rfl⟩, .inl hidle,
    fun hw => absurd hw hwork, fun _ _ => rfl, fun _ => ⟨hidle, hne, hping nofun⟩, nofun, ?_, ?_⟩
  · show (fd, s.accepted) :: s.fds = _
    rw [hfds]
  · exact fun hterm => absurd hterm (h.alive hpc rfl)
  · intro (c : Nat)
    have hp : (List.lookup fd ((fd, s.accepted) :: s.fds)) = some s.accepted := by simp
    have hp' : s.peer = none := by rw [peer, hfds]; rfl
    show s.closed.count c = if c < s.accepted + 1 ∧
      List.lookup fd ((fd, s.accepted) :: s.fds) ≠ some c then 1 else 0
    rw [h.count_closed c, hp, hp']
    -- none of the connections accepted before is open, and the new one is
    have hiff : (c < s.accepted ∧ none ≠ some c) ↔
        (c < s.accepted + 1 ∧ some s.accepted ≠ some c) := by
      simp only [ne_eq, reduceCtorEq, not_false_eq_true, and_true, Option.some.injEq]
      omega
    simp only [hiff]

/-- `accept` fails: nobody is served, and nothing is open. -/
theorem connected_acceptFailed (h : Connected s) (ho : Orderly s (.loop (.accept none)))
    (hpc : s.loop = .connecting) : Connected { s with peerfd := -1, loop := .top } := by
  obtain ⟨-, hnone⟩ := idle_of_connecting h hpc ho.1
  refine h.advance hpc rfl ?_ rfl rfl nofun
  simp only [connection, hnone]

/-- `handle` changes the reader, the heartbeat and the metrics, and moves on with the same deferred
    switch. -/
theorem connected_handled {d : Bool} (h : Connected s) (hpc : s.loop = .reading d) (c : Conn)
    (raw : MsgRaw) (now : UInt64) : Connected (s.handle d c raw now) := by
  unfold handle
  split
  · split <;> exact h.advance hpc rfl rfl rfl rfl nofun
  · split
    · split <;> exact h.advance hpc rfl rfl rfl rfl nofun
    · exact h.advance hpc rfl rfl rfl rfl nofun

/-- A step of the loop keeps the connection: it disconnects the peer after an error, and accepts
    another one when there is none. -/
theorem connected_loop {a : LoopAct} (h : Connected s) (ho : Orderly s (.loop a))
    (hm : LoopMove s a s') : Connected s' := by
  cases hm with
  | advanced a pc hpc => exact connected_advanced h hpc
  | polled active positive all pc hpc hnext =>
    rcases hnext with rfl | rfl <;> exact h.advance hpc rfl rfl rfl rfl nofun
  | retrieved pc hpc hev => cases hev <;> exact h.advance hpc rfl rfl rfl rfl nofun
  | ranClosure fn todo hpc =>
    by_cases hfn : fn = .terminate
    · rw [if_pos hfn]
      exact ⟨h.closed_peer, h.open_peer, .inr (.inr rfl), nofun, nofun, nofun, nofun,
        fun _ => rfl, h.count_closed⟩
    · rw [if_neg hfn]
      exact h.frame rfl (by rw [hpc]; rfl) (fun _ hp => hp) nofun (fun _ => rfl)
  | swappedClosures hpc | swappedMsgs hpc | wrote msg todo c hpc | pushed d r w hpc
  | notified d w hpc | complained d hpc | complaintNotified d hpc =>
    exact h.advance hpc rfl rfl rfl rfl nofun
  | writeFailed ok msg todo hpc => exact h.disconnect rfl rfl nofun
  | acceptFailed hpc => exact connected_acceptFailed h ho hpc
  | accepted fd hpc hfd hfresh => exact connected_accepted h ho hpc hfd
  | readFailed d stream now hpc =>
    -- no switch is deferred while the loop reads
    have hd : d = false := h.reading d hpc
    subst hd
    exact h.disconnect rfl rfl nofun
  | handled d stream now c hpc hpeer hok => exact connected_handled h hpc c _ now
  | ended d hpc =>
    cases d with
    | false => exact h.advance hpc rfl rfl rfl rfl nofun
    | true =>
      obtain ⟨-, hopen, -⟩ := h.deferred (by rw [hpc]; rfl)
      exact ⟨h.closed_peer, h.open_peer, .inr (.inl rfl), fun _ => hopen, nofun, nofun, nofun,
        nofun, h.count_closed⟩

/-- So does a step of the timer thread, which may disconnect the peer. -/
theorem connected_ping {a : PingAct} (h : Connected s) (hm : PingMove s a s') : Connected s' := by
  cases hm with
  | idle now hpc hidle => exact h.other rfl rfl rfl
  | tested now hb pc hpc hbusy hnext =>
    exact h.frame rfl rfl (fun hidle _ => absurd hidle hbusy) h.reading h.stopping
  | disconnected hpc =>
    -- the loop does not hold a deferred switch while `Ping` is about to disconnect
    have hdef : s.loop.deferred = false := by
      by_contra hd
      exact (h.deferred (by simpa using hd)).2.2 hpc
    exact h.disconnect rfl hdef h.reading
  | published raw hpc | notified hpc =>
    exact h.frame rfl rfl (fun _ hp => nomatch hp) h.reading h.stopping

/-- **Every move keeps the connection.**  The loop and the timer thread may both disconnect the
    peer; in an orderly run no other one is accepted between the verdict of `Ping` and its
    `onDisconnect`. -/
theorem connected_move {a : Act} (h : Connected s) (ho : Orderly s a) (hm : Move s a s') :
    Connected s' := by
  cases hm with
  | loop a s' hm => exact connected_loop h ho hm
  | worker a s' hm => cases hm <;> exact h.other rfl rfl rfl
  | ping a s' hm => exact connected_ping h hm
  | ignored => exact h
  | pub | pubNotified | submitted | submitNotified | quit =>
    exact h.other rfl rfl rfl

/-! ### Whole runs -/

/-- **The connection invariant.**  In every run in which `accept` is called only while no peer is
    served and no `Ping` is about to disconnect: at the top of every iteration the state is `WORK`
    exactly when `peerfd` is the one open descriptor and the polled one, it is `IDLE` with
    `peerfd = -1` otherwise, and every other accepted descriptor has been closed once. -/
theorem listener_connection (acts : List Act) (s : Listener) (h : exec step init acts = some s)
    (ho : Along step Orderly init acts) (htop : s.loop = .top) :
    (s.state = .WORK ↔ (∃ c, s.fds = [(s.peerfd, c)]) ∧ s.positivefd = s.peerfd) ∧
      (s.state ≠ .WORK → s.state = .IDLE ∧ s.peerfd = -1) ∧
      ∀ c < s.accepted, s.closed.count c = if s.peer = some c then 0 else 1 := by
  have hinv : Connected s :=
    exec_invariant_along (fun _ _ _ hs ha hst => connected_move hs ha (move_of_step hst))
      connected_init ho h
  -- at the top of the loop nothing is deferred, and the thread does not stop
  have hrest : s.state ≠ .WORK → s.state = .IDLE ∧ s.peerfd = -1 := by
    intro hne
    rcases hinv.states with hs | hs | hs
    · refine ⟨hs, ?_⟩
      by_contra hp
      have := hinv.idle hs hp
      rw [htop] at this
      cases this
    · exact absurd hs hne
    · have := hinv.stopping hs
      rw [htop] at this
      cases this
  refine ⟨⟨fun hw => ?_, fun ⟨⟨c, hfds⟩, _⟩ => ?_⟩, hrest, fun c hc => ?_⟩
  · obtain ⟨⟨c, -, hfds⟩, hpos⟩ := hinv.open_peer (hinv.working hw)
    exact ⟨⟨c, hfds⟩, hpos⟩
  · by_contra hne
    have hnil := hinv.closed_peer (hrest hne).2
    rw [hfds] at hnil
    cases hnil
  · rw [hinv.count_closed c]
    by_cases hp : s.peer = some c
    · simp [hp]
    · simp [hp, hc]

/-- A peer connects and closes its end. -/
theorem listener_connection_one_peer :
    ∃ s, exec step init (acceptPeer 5 ++ readPeer [] ++ nexts 1) = some s ∧
      s.closed = [0] ∧ (s.state ≠ .WORK → s.state = .IDLE ∧ s.peerfd = -1) := by
  obtain ⟨s, hs, hp⟩ := exists_of_exec_any (s := init)
    (p := fun s => decide (s.loop = .top ∧ s.closed = [0]))
    (show (exec step _ (acceptPeer 5 ++ readPeer [] ++ nexts 1)).any _ = true by decide +kernel)
  rw [decide_eq_true_eq] at hp
  exact ⟨s, hs, hp.2, (listener_connection _ s hs (by decide +kernel) hp.1).2.1⟩

/-- **A second peer.**  Another connection is accepted while one is served: `peerfd` is overwritten,
    two descriptors are open at the top of the loop and the first is not closed. -/
theorem second_peer_leaks :
    ∃ s, exec step init (acceptPeer 5 ++ acceptPeer 6) = some s ∧ s.loop = .top ∧
      s.state = .WORK ∧ s.peerfd = 6 ∧ s.fds = [(6, 1), (5, 0)] ∧ s.closed.count 0 = 0 ∧
      ¬ ∃ c, s.fds = [(s.peerfd, c)] := by
  obtain ⟨s, hs, hp⟩ := exists_of_exec_any (s := init)
    (p := fun s => decide (s.loop = .top ∧ s.state = .WORK ∧ s.peerfd = 6 ∧
      s.fds = [(6, 1), (5, 0)] ∧ s.closed.count 0 = 0))
    (show (exec step _ (acceptPeer 5 ++ acceptPeer 6)).any _ = true by decide +kernel)
  rw [decide_eq_true_eq] at hp
  obtain ⟨htop, hwork, hpeer, hfds, hclosed⟩ := hp
  refine ⟨s, hs, htop, hwork, hpeer, hfds, hclosed, ?_⟩
  rintro ⟨c, hc⟩
  rw [hfds] at hc
  simp at hc

end CPlayground.Monitor.Listener
