import CPlayground.Monitor.Listener.Moves
import Mathlib.Data.List.Range

namespace CPlayground.Monitor.Listener

open CPlayground.Trace

/-!
# `Listener`: which request does `Work` process?

`Reader::read` decodes every request into the one `Reader::msgreq` and posts a task that does not
carry it; `Listener::Work` reads `msgreq` when it runs.

* `listener_request_binding` — every execution of `Work` uses the arguments of the request whose
  receipt posted its task, and none is processed twice, provided that `msgreq` does not change
  while an accepted request waits to be processed (`Exclusive`).
* `second_request_overwrites` — two requests in a row: both executions use the second one.
-/

/-! ### The invariant -/

/-- A request that is accepted and not posted yet. -/
def LoopPc.unposted : LoopPc → List Request
  | .posting _ r => [r]
  | _ => []

/-- A request for which `Work` was called and has not read its input. -/
def WorkPc.unread : WorkPc → List Request
  | .started r => [r]
  | _ => []

/-- The accepted requests whose arguments have not been read by `Work`. -/
def unprocessed (s : Listener) : List Request :=
  s.loop.unposted ++ (s.worker.waiting ++ s.work.unread)

/-- Every waiting request finds its arguments in `msgreq`, and every accepted request is posted and
    run at most once. -/
structure Bound (s : Listener) : Prop where
  args : ∀ r ∈ s.unprocessed, r.args = s.r.msgreq
  works : ∀ p ∈ s.works, p.2 = p.1.args
  ran : s.worker.ran = s.works.map Prod.fst ++ s.work.unread
  kept : (s.worker.ran ++ s.worker.waiting).Perm s.worker.posted
  posted : (s.worker.posted ++ s.loop.unposted).map Request.seq = List.range s.requests

/-- What `Reader::read` leaves in `msgreq`. -/
def nextRequest (m : MsgRequest) (stream : List UInt8) : MsgRequest :=
  let result := MsgRaw.fresh.read stream
  if result.ok ∧ result.msg.type = MSGREQUEST then (m.unpack (.new result.msg.payload)).2.1 else m

/-- A message that changes `msgreq` is read only when no accepted request is unprocessed. -/
def Exclusive (s : Listener) : Act → Prop
  | .loop (.read stream _) => nextRequest s.r.msgreq stream ≠ s.r.msgreq → s.unprocessed = []
  | _ => True

instance decidableExclusive (s : Listener) : (a : Act) → Decidable (Exclusive s a)
  | .loop (.read ..) => inferInstanceAs (Decidable (_ → _))
  | .loop (.accept _) | .loop .next | .loop (.poll ..) | .loop .interrupted | .loop .pollError
  | .loop (.write _) | .worker _ | .ping _ | .pub .. | .pubNotify _ | .runOnLoop ..
  | .runOnLoopNotify _ | .quit => .isTrue trivial

variable {s s' : Listener}

/-- No request was read. -/
theorem bound_init : Bound init where
  args := by
    simp [unprocessed, init, LoopPc.unposted, WorkPc.unread, TaskRunner.waiting, TaskRunner.batch,
      TaskRunner.init]
  works := by simp [init]
  ran := rfl
  kept := by simp [init, TaskRunner.waiting, TaskRunner.batch, TaskRunner.init]
  posted := rfl

/-! ### Lemmas -/

/-- The data the binding rests on. -/
def binding (s : Listener) := (s.worker, s.work.unread, s.works, s.requests, s.r.msgreq)

/-- A step that leaves them alone and moves the loop between positions without a request. -/
theorem Bound.frame (h : Bound s) (hb : s'.binding = s.binding)
    (hloop : s'.loop.unposted = s.loop.unposted) : Bound s' := by
  simp only [binding, Prod.mk.injEq] at hb
  obtain ⟨hworker, hwork, hworks, hrequests, hmsgreq⟩ := hb
  have hun : s'.unprocessed = s.unprocessed := by
    rw [unprocessed, unprocessed, hloop, hworker, hwork]
  refine ⟨?_, ?_, ?_, ?_, ?_⟩
  · rw [hun, hmsgreq]
    exact h.args
  · rw [hworks]
    exact h.works
  · rw [hworker, hworks, hwork]
    exact h.ran
  · rw [hworker]
    exact h.kept
  · rw [hworker, hloop, hrequests]
    exact h.posted

/-- The steps of the worker's runner outside a task, and the notification of the loop. -/
theorem Bound.runner (h : Bound s) {a : TaskRunner.Act Request} {w : TaskRunner Request}
    (hw : TaskRunner.Move s.worker a w) (hpush : ∀ tid task, a ≠ .push tid task)
    (hrun : a ≠ .runTask) (hb : s'.binding = { s with worker := w }.binding)
    (hloop : s'.loop.unposted = s.loop.unposted) : Bound s' := by
  simp only [binding, Prod.mk.injEq] at hb
  obtain ⟨hworker, hwork, hworks, hrequests, hmsgreq⟩ := hb
  -- the runner makes a step that neither takes a request nor runs one
  obtain ⟨hran, hposted⟩ := TaskRunner.history_of_move hw hpush hrun
  refine ⟨?_, ?_, ?_, ?_, ?_⟩
  · intro r hmem
    rw [hmsgreq]
    apply h.args r
    rw [unprocessed, hloop, hworker, hwork] at hmem
    simp only [unprocessed, List.mem_append] at hmem ⊢
    -- it is with the loop, with the runner, or with the worker
    rcases hmem with hmem | hmem | hmem
    · exact .inl hmem
    · rcases TaskRunner.mem_waiting_of_move hw hmem with hmem | ⟨tid, ha⟩
      · exact .inr (.inl hmem)
      · exact absurd ha (hpush tid _)
    · exact .inr (.inr hmem)
  · rw [hworks]
    exact h.works
  · rw [hworker, hran, hworks, hwork]
    exact h.ran
  · rw [hworker]
    exact TaskRunner.kept_move h.kept hw
  · rw [hworker, hposted, hloop, hrequests]
    exact h.posted

/-- The message read leaves `m` in `msgreq`: either that is what it held, or nobody waits for what
    it held. -/
theorem args_of_exclusive (h : Bound s) {stream : List UInt8} {now : UInt64}
    (hx : Exclusive s (.loop (.read stream now))) {m : MsgRequest}
    (hm : nextRequest s.r.msgreq stream = m) : ∀ r ∈ s.unprocessed, r.args = m := by
  intro r hr
  by_cases hsame : m = s.r.msgreq
  · rw [hsame]
    exact h.args r hr
  · have hnil := hx (hm ▸ hsame)
    rw [hnil] at hr
    cases hr

/-! ### Every step keeps the invariant -/

/-- **A message that was read** changes `msgreq` only if no accepted request waits for it. -/
theorem bound_handled {d : Bool} {stream : List UInt8} {now : UInt64} (h : Bound s)
    (hpc : s.loop = .reading d) (hok : (MsgRaw.fresh.read stream).ok = true)
    (hx : Exclusive s (.loop (.read stream now))) (c : Conn) :
    Bound (s.handle d c (MsgRaw.fresh.read stream).msg now) := by
  have hun : s.loop.unposted = [] := by rw [hpc]; rfl
  unfold handle
  split
  · rename_i htype
    split
    · -- the request is accepted: it is the one in `msgreq`
      rename_i m rest hunpack
      have hnext : nextRequest s.r.msgreq stream = m := by
        rw [nextRequest, if_pos ⟨hok, htype⟩, hunpack]
      have hold := args_of_exclusive h hx hnext
      refine ⟨?_, h.works, h.ran, h.kept, ?_⟩
      · intro r hr
        rcases List.mem_append.mp hr with hr | hr
        · rw [List.mem_singleton.mp hr]
        · exact hold r (List.mem_append_right _ hr)
      · have hposted := h.posted
        rw [hun, List.append_nil] at hposted
        show (s.worker.posted ++ [_]).map Request.seq = List.range (s.requests + 1)
        rw [List.map_append, hposted, List.range_succ]
        rfl
    · rename_i m rest hunpack
      have hnext : nextRequest s.r.msgreq stream = m := by
        rw [nextRequest, if_pos ⟨hok, htype⟩, hunpack]
      have hold := args_of_exclusive h hx hnext
      refine ⟨?_, h.works, h.ran, h.kept, ?_⟩
      · intro r hr
        exact hold r (List.mem_append_right _ hr)
      · have hposted := h.posted
        rw [hun] at hposted
        exact hposted
  · split
    · split <;> exact h.frame rfl (by rw [hpc]; rfl)
    · exact h.frame rfl (by rw [hpc]; rfl)

/-- The task of the request goes into the worker's deque, and from then on it waits there instead of
    with the loop. -/
theorem bound_pushed {d : Bool} {r : Request} {w : TaskRunner Request} (h : Bound s)
    (hpc : s.loop = .posting d r) (hw : TaskRunner.Move s.worker (.push 0 ⟨some r⟩) w) :
    Bound { s with worker := w, loop := .posted d } := by
  have hkept := TaskRunner.kept_move h.kept hw
  -- what waits in the runner is what waited before, and the request
  have hmem : ∀ u ∈ w.waiting, u ∈ s.unprocessed := by
    intro u hu
    simp only [unprocessed, List.mem_append]
    rcases TaskRunner.mem_waiting_of_move hw hu with hu | ⟨tid, heq⟩
    · exact .inr (.inl hu)
    · cases heq
      exact .inl (by rw [hpc]; exact List.mem_singleton_self _)
  have hhist : w.ran = s.worker.ran ∧ w.posted = s.worker.posted ++ [r] := by
    cases hw with
    | ignored _ _ hfn => cases hfn
    | pushed _ _ t hfn hfree => cases hfn; exact ⟨rfl, rfl⟩
  refine ⟨?_, h.works, ?_, hkept, ?_⟩
  · intro u hu
    apply h.args u
    simp only [unprocessed, LoopPc.unposted, List.nil_append, List.mem_append] at hu
    rcases hu with hu | hu
    · exact hmem u hu
    · exact List.mem_append_right _ (List.mem_append_right _ hu)
  · exact hhist.1.trans h.ran
  -- the request is posted now, and no longer with the loop
  · have hposted := h.posted
    rw [hpc] at hposted
    show (w.posted ++ []).map Request.seq = _
    rw [hhist.2, List.append_nil]
    exact hposted

/-- A step of the loop keeps the requests bound: it changes `msgreq` only by the message that it
    reads. -/
theorem bound_loop {a : LoopAct} (h : Bound s) (hx : Exclusive s (.loop a))
    (hm : LoopMove s a s') : Bound s' := by
  cases hm with
  | advanced a pc hpc =>
    refine h.frame rfl ?_
    show pc.unposted = s.loop.unposted
    generalize s.loop = l at hpc
    cases hpc <;> rfl
  | polled active positive all pc hpc hnext =>
    rcases hnext with rfl | rfl <;> exact h.frame rfl (by rw [hpc]; rfl)
  | retrieved pc hpc hev => cases hev <;> exact h.frame rfl (by rw [hpc]; rfl)
  | swappedClosures hpc | ranClosure fn todo hpc | swappedMsgs hpc | wrote msg todo c hpc
  | writeFailed ok msg todo hpc | acceptFailed hpc | accepted fd hpc | readFailed d stream now hpc
  | complained d hpc | complaintNotified d hpc | ended d hpc =>
    exact h.frame rfl (by rw [hpc]; rfl)
  | handled d stream now c hpc hpeer hok => exact bound_handled h hpc hok hx c
  | pushed d r w hpc hw => exact bound_pushed h hpc hw
  | notified d w hpc hw => exact h.runner hw nofun nofun rfl (by rw [hpc]; rfl)

/-- So does a step of the worker, which reads `msgreq` when it runs the task. -/
theorem bound_worker {a : WorkerAct} (h : Bound s) (hm : WorkerMove s a s') : Bound s' := by
  cases hm with
  | runner a b w hb hw =>
    refine h.runner hw ?_ ?_ rfl rfl
    · rintro tid task rfl
      rcases hb with hb | hb | hb | hb | hb <;> cases hb
    · rintro rfl
      rcases hb with hb | hb | hb | hb | hb <;> cases hb
  | started r todo hready hrun =>
    -- the task moves from the batch to `Work`
    have hwait : s.worker.waiting = r :: (todo ++ s.worker.tasks) := by
      simp [TaskRunner.waiting, TaskRunner.batch, hrun]
    refine ⟨?_, h.works, ?_, ?_, h.posted⟩
    · intro u hu
      apply h.args u
      rw [unprocessed, hwait]
      simp only [unprocessed, TaskRunner.waiting, TaskRunner.batch, WorkPc.unread, List.mem_append,
        List.mem_cons, List.not_mem_nil, or_false] at hu ⊢
      tauto
    · show s.worker.ran ++ [r] = s.works.map Prod.fst ++ [r]
      rw [h.ran, hready]
      simp [WorkPc.unread]
    · have hkept := h.kept
      rw [hwait] at hkept
      simpa [TaskRunner.waiting, TaskRunner.batch] using hkept
  | inputRead r hpc =>
    have hargs : r.args = s.r.msgreq := by
      apply h.args r
      rw [unprocessed, hpc]
      simp [WorkPc.unread]
    refine ⟨?_, ?_, ?_, h.kept, h.posted⟩
    · intro u hu
      apply h.args u
      simp only [unprocessed, WorkPc.unread, List.append_nil, List.mem_append] at hu ⊢
      tauto
    · intro p hp
      rcases List.mem_append.mp hp with hp | hp
      · exact h.works p hp
      · rw [List.mem_singleton.mp hp]
        exact hargs.symm
    · have hran := h.ran
      rw [hpc] at hran
      rw [hran]
      simp [WorkPc.unread]
  | published r raw hpc => exact h.frame (by simp only [binding, hpc]; rfl) rfl
  | notified hpc => exact h.frame (by simp only [binding, hpc]; rfl) rfl

/-- **Every move keeps the requests bound**: the loop changes `msgreq` only while no request is
    unprocessed, so the worker finds in it what belongs to its request. -/
theorem bound_move {a : Act} (h : Bound s) (hx : Exclusive s a) (hm : Move s a s') : Bound s' := by
  cases hm with
  | loop a s' hm => exact bound_loop h hx hm
  | worker a s' hm => exact bound_worker h hm
  | ping a s' hm => cases hm <;> exact h.frame rfl rfl
  | ignored => exact h
  | pub | pubNotified | submitted | submitNotified | quit => exact h.frame rfl rfl

/-! ### Whole runs -/

/-- The requests that `Work` has started on are all different. -/
theorem nodup_ran (h : Bound s) : (s.worker.ran.map Request.seq).Nodup := by
  have hposted : (s.worker.posted.map Request.seq).Nodup := by
    have hrange := List.nodup_range (n := s.requests)
    rw [← h.posted, List.map_append] at hrange
    exact (List.nodup_append.mp hrange).1
  have hall := (h.kept.map Request.seq).nodup_iff.mpr hposted
  rw [List.map_append] at hall
  exact (List.nodup_append.mp hall).1

/-- **Request binding.**  In every run in which no message that changes `msgreq` is read while an
    accepted request is unprocessed: every execution of `Work` used the arguments of the request
    that posted its task, every unprocessed request still finds its own arguments in `msgreq`, and
    no request was processed twice. -/
theorem listener_request_binding (acts : List Act) (s : Listener)
    (h : exec step init acts = some s) (hx : Along step Exclusive init acts) :
    (∀ p ∈ s.works, p.2 = p.1.args) ∧ (∀ r ∈ s.unprocessed, r.args = s.r.msgreq) ∧
      (s.works.map fun p => p.1.seq).Nodup := by
  have hinv : Bound s :=
    exec_invariant_along (fun _ _ _ hs ha hst => bound_move hs ha (move_of_step hst))
      bound_init hx h
  refine ⟨hinv.works, hinv.args, ?_⟩
  have hran := nodup_ran hinv
  rw [hinv.ran, List.map_append, List.map_map] at hran
  exact (List.nodup_append.mp hran).1

/-- The second request is read after `Work` has read the input of the first. -/
def requestsApart : List Act :=
  acceptPeer 5 ++ readRequest 1 2 ++ workOnce ++ readRequest 3 4 ++ answer ++
    .worker .rest :: workOnce

/-- Both requests are read before the worker runs. -/
def requestsTogether : List Act :=
  acceptPeer 5 ++ readRequest 1 2 ++ readRequest 3 4 ++ workOnce ++ answer ++
    [.worker .start, .worker .input]

/-- Two requests, each processed with its own arguments. -/
theorem listener_request_binding_two_requests :
    ∃ s, exec step init requestsApart = some s ∧
      s.works.map Prod.snd = [⟨1, 2⟩, ⟨3, 4⟩] ∧ ∀ p ∈ s.works, p.2 = p.1.args := by
  obtain ⟨s, hs, hp⟩ := exists_of_exec_any (s := init)
    (p := fun s => decide (s.works.map Prod.snd = [⟨1, 2⟩, ⟨3, 4⟩]))
    (show (exec step _ requestsApart).any _ = true by decide +kernel)
  rw [decide_eq_true_eq] at hp
  exact ⟨s, hs, hp, (listener_request_binding _ s hs (by decide +kernel)).1⟩

/-- **Overwritten arguments.**  Two requests are read before the worker runs: the task of the first
    one, `(1, 2)`, is executed with the arguments `(3, 4)` of the second. -/
theorem second_request_overwrites :
    ∃ s, exec step init requestsTogether = some s ∧
      ∃ p ∈ s.works, p.1.args = ⟨1, 2⟩ ∧ p.2 = ⟨3, 4⟩ := by
  obtain ⟨s, hs, hp⟩ := exists_of_exec_any (s := init)
    (p := fun s => s.works.any fun p => decide (p.1.args = ⟨1, 2⟩ ∧ p.2 = ⟨3, 4⟩))
    (show (exec step _ requestsTogether).any _ = true by decide +kernel)
  obtain ⟨p, hmem, hp⟩ := List.any_eq_true.mp hp
  exact ⟨s, hs, p, hmem, of_decide_eq_true hp⟩

end CPlayground.Monitor.Listener
