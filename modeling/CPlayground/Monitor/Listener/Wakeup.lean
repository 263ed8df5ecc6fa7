import CPlayground.Monitor.Listener.Moves
import Mathlib.Algebra.Order.BigOperators.Group.List

namespace CPlayground.Monitor.Listener

open CPlayground.Trace

/-!
# `Listener`: no lost wake-up

`Writer::pub` and `runOnLoop` append under a lock and then add `kNotifySmall` or `kNotifyMedium` to
the counter of `msghub`; the loop reads the sum and decides by an `else if` chain what to serve.

* `listener_no_lost_wakeup` — when the loop is back in `poll` with a zero counter and nobody is
  between an append and its notification, both queues are empty, provided that no read of the
  counter finds notifications of both kinds (`Separate`).
* `coalesced_loses_message` — a sum of both kinds is taken for closures only, and the published
  message stays behind with a zero counter.
-/

/-! ### The invariant -/

/-- A position from which the loop serves `w.msgs`, notifies for them, or nothing any more. -/
def LoopPc.servesMsgs : LoopPc → Bool
  | .published _ | .swapMsgs | .exited => true
  | _ => false

/-- A position from which the loop serves `closures`, or nothing any more. -/
def LoopPc.servesClosures : LoopPc → Bool
  | .swapClosures | .exited => true
  | _ => false

/-- The closures the loop has swapped out and not run. -/
def LoopPc.todo : LoopPc → List Closure
  | .closures todo => todo
  | _ => []

/-- A notification for `w.msgs` is unread, about to be made, or just read. -/
def SmallDue (s : Listener) : Prop :=
  kNotifySmall ∈ s.msghub.unread ∨ s.pubs ≠ [] ∨ s.work = .published ∨ s.ping = .published ∨
    s.loop.servesMsgs = true

/-- A notification for `closures` is unread, about to be made, or just read. -/
def MediumDue (s : Listener) : Prop :=
  kNotifyMedium ∈ s.msghub.unread ∨ s.submits ≠ [] ∨ s.loop.servesClosures = true

/-- Both queues are announced: what is in one of them has a notification that is unread or in hand,
    or a thread that is about to write one; and nothing is lost on the way through them. -/
structure Announced (s : Listener) : Prop where
  msgs : s.msgs ≠ [] → SmallDue s
  closures : s.closures ≠ [] → MediumDue s
  events : ∀ e ∈ s.msghub.unread, e = kNotifySmall ∨ e = kNotifyMedium ∨ e = kNotifyLarge
  handed : s.publications = s.handed ++ s.msgs
  executed : s.submitted = s.executed ++ (s.loop.todo ++ s.closures)

/-- When the counter is read, fewer than `2 ^ 31` notifications are unread, and not both kinds. -/
def Separate (s : Listener) : Act → Prop
  | .loop .next => s.loop = .retrieving →
      s.msghub.unread.length < 2 ^ 31 ∧
        ¬ (kNotifySmall ∈ s.msghub.unread ∧ kNotifyMedium ∈ s.msghub.unread)
  | _ => True

instance decidableSeparate (s : Listener) : (a : Act) → Decidable (Separate s a)
  | .loop .next => inferInstanceAs (Decidable (_ → _ ∧ ¬ (_ ∧ _)))
  | .loop (.accept _) | .loop (.poll ..) | .loop .interrupted | .loop .pollError | .loop (.write _)
  | .loop (.read ..) | .worker _ | .ping _ | .pub .. | .pubNotify _ | .runOnLoop ..
  | .runOnLoopNotify _ | .quit => .isTrue trivial

variable {s s' : Listener}

/-- Both queues are empty. -/
theorem announced_init : Announced init where
  msgs := fun h => absurd rfl h
  closures := fun h => absurd rfl h
  events := by simp [init, Notifier.new]
  handed := rfl
  executed := rfl

/-! ### Lemmas -/

/-- The queues with their histories. -/
def queues (s : Listener) :=
  (s.msgs, s.closures, s.publications, s.handed, s.submitted, s.executed)

/-- Where the notifications are: unread, or about to be made by another thread. -/
def notifiers (s : Listener) := (s.msghub, s.pubs, s.submits, s.work, s.ping)

/-- A step that leaves the queues and their histories alone and loses no announcement. -/
theorem Announced.frame (h : Announced s) (hq : s'.queues = s.queues)
    (htodo : s'.loop.todo = s.loop.todo) (hsmall : SmallDue s → SmallDue s')
    (hmedium : MediumDue s → MediumDue s')
    (hev : ∀ e ∈ s'.msghub.unread, e = kNotifySmall ∨ e = kNotifyMedium ∨ e = kNotifyLarge) :
    Announced s' := by
  simp only [queues, Prod.mk.injEq] at hq
  obtain ⟨hmsgs, hclosures, hpub, hhand, hsub, hexec⟩ := hq
  refine ⟨?_, ?_, hev, ?_, ?_⟩
  · rw [hmsgs]
    exact fun hne => hsmall (h.msgs hne)
  · rw [hclosures]
    exact fun hne => hmedium (h.closures hne)
  · rw [hpub, hhand, hmsgs]
    exact h.handed
  · rw [hsub, hclosures, hexec, htodo]
    exact h.executed

/-- An announcement for `msgs` survives a step that keeps what it rests on. -/
theorem SmallDue.mono (hd : SmallDue s) (hunread : s.msghub.unread ⊆ s'.msghub.unread)
    (hpubs : s.pubs ≠ [] → s'.pubs ≠ []) (hwork : s.work = .published → s'.work = .published)
    (hping : s.ping = .published → s'.ping = .published)
    (hloop : s.loop.servesMsgs = true → s'.loop.servesMsgs = true) : SmallDue s' := by
  rcases hd with hd | hd | hd | hd | hd
  · exact .inl (hunread hd)
  · exact .inr (.inl (hpubs hd))
  · exact .inr (.inr (.inl (hwork hd)))
  · exact .inr (.inr (.inr (.inl (hping hd))))
  · exact .inr (.inr (.inr (.inr (hloop hd))))

/-- What announces a closure does so still after a step that takes none of it away. -/
theorem MediumDue.mono (hd : MediumDue s) (hunread : s.msghub.unread ⊆ s'.msghub.unread)
    (hsubmits : s.submits ≠ [] → s'.submits ≠ [])
    (hloop : s.loop.servesClosures = true → s'.loop.servesClosures = true) : MediumDue s' := by
  rcases hd with hd | hd | hd
  · exact .inl (hunread hd)
  · exact .inr (.inl (hsubmits hd))
  · exact .inr (.inr (hloop hd))

/-- The loop leaves a position where it does not serve `msgs`. -/
theorem SmallDue.move (hd : SmallDue s) {pc : LoopPc} (hpc : s.loop = pc)
    (hn : s'.notifiers = s.notifiers) (hno : pc.servesMsgs = false) : SmallDue s' := by
  simp only [notifiers, Prod.mk.injEq] at hn
  obtain ⟨hhub, hpubs, -, hwork, hping⟩ := hn
  refine hd.mono (by rw [hhub]; exact List.Subset.refl _) (by rw [hpubs]; exact fun h => h)
    (by rw [hwork]; exact fun h => h) (by rw [hping]; exact fun h => h) ?_
  rw [hpc, hno]
  nofun

/-- The loop leaves a position where it does not serve `closures`. -/
theorem MediumDue.move (hd : MediumDue s) {pc : LoopPc} (hpc : s.loop = pc)
    (hn : s'.notifiers = s.notifiers) (hno : pc.servesClosures = false) : MediumDue s' := by
  simp only [notifiers, Prod.mk.injEq] at hn
  obtain ⟨hhub, -, hsubmits, -, -⟩ := hn
  refine hd.mono (by rw [hhub]; exact List.Subset.refl _) (by rw [hsubmits]; exact fun h => h) ?_
  rw [hpc, hno]
  nofun

/-- The loop moves on from a position where it serves nothing. -/
theorem Announced.advance (h : Announced s) {pc : LoopPc} (hpc : s.loop = pc)
    (hq : s'.queues = s.queues) (hn : s'.notifiers = s.notifiers) (htodo : s'.loop.todo = pc.todo)
    (hmsgs : pc.servesMsgs = false) (hclosures : pc.servesClosures = false) : Announced s' := by
  have hhub : s'.msghub = s.msghub := congrArg Prod.fst hn
  exact h.frame hq (hpc ▸ htodo) (fun hd => hd.move hpc hn hmsgs)
    (fun hd => hd.move hpc hn hclosures) (by rw [hhub]; exact h.events)

/-- A message is published, and its publisher has yet to notify. -/
theorem Announced.publish (h : Announced s) (raw : MsgRaw) (origin : Option Request)
    (hq : s'.queues = (s.append raw origin).queues) (htodo : s'.loop.todo = s.loop.todo)
    (hsmall : SmallDue s') (hmedium : MediumDue s → MediumDue s') (hhub : s'.msghub = s.msghub) :
    Announced s' := by
  simp only [queues, append, Prod.mk.injEq] at hq
  obtain ⟨hmsgs, hclosures, hpub, hhand, hsub, hexec⟩ := hq
  refine ⟨fun _ => hsmall, ?_, by rw [hhub]; exact h.events, ?_, ?_⟩
  · rw [hclosures]
    exact fun hne => hmedium (h.closures hne)
  · rw [hpub, hmsgs, hhand, h.handed, List.append_assoc]
  · rw [hsub, hclosures, hexec, htodo]
    exact h.executed

/-- A thread notifies. -/
theorem Announced.notify (h : Announced s) {event : Nat}
    (he : event = kNotifySmall ∨ event = kNotifyMedium ∨ event = kNotifyLarge)
    (hq : s'.queues = s.queues) (htodo : s'.loop.todo = s.loop.todo)
    (hhub : s'.msghub.unread = event :: s.msghub.unread)
    (hsmall : SmallDue s → SmallDue s') (hmedium : MediumDue s → MediumDue s') : Announced s' := by
  refine h.frame hq htodo hsmall hmedium ?_
  rw [hhub]
  intro e hmem
  rcases List.mem_cons.mp hmem with rfl | hmem
  · exact he
  · exact h.events e hmem

/-- The counter is the sum of the unread notifications. -/
theorem value_eq_sum (n : Notifier) : n.value = n.unread.sum := rfl

/-- The counter is at least each unread notification. -/
theorem le_value {n : Notifier} {event : Nat} (h : event ∈ n.unread) : event ≤ n.value := by
  rw [value_eq_sum]
  exact List.le_sum_of_mem h

/-- A counter that asks for closures contains a notification for them, when fewer than `2 ^ 31` are
    unread. -/
theorem medium_mem (h : Announced s) (hfew : s.msghub.unread.length < 2 ^ 31)
    (hge : kNotifyMedium ≤ s.msghub.value) (hlt : s.msghub.value < kNotifyLarge) :
    kNotifyMedium ∈ s.msghub.unread := by
  by_contra hno
  have hall : ∀ e ∈ s.msghub.unread, e = kNotifySmall := by
    intro e he
    rcases h.events e he with hs | hm | hl
    · exact hs
    · exact absurd (hm ▸ he) hno
    · have hle := le_value (hl ▸ he)
      omega
  have hsum : s.msghub.unread.sum = s.msghub.unread.length • kNotifySmall :=
    List.sum_eq_card_nsmul _ _ hall
  unfold kNotifyMedium at hge
  rw [value_eq_sum, hsum, kNotifySmall, nsmul_eq_mul, mul_one, Nat.cast_id] at hge
  omega

/-! ### Every step keeps the invariant -/

/-- Reading the counter: the branch that is taken serves every announcement that was unread. -/
theorem announced_retrieved {pc : LoopPc} (h : Announced s) (hsep : Separate s (.loop .next))
    (hpc : s.loop = .retrieving) (hev : Decoded s.msghub.value pc) :
    Announced { s with msghub := .new, loop := pc } := by
  obtain ⟨hfew, hone⟩ := hsep hpc
  have htodo : pc.todo = s.loop.todo := by rw [hpc]; cases hev <;> rfl
  refine h.frame rfl htodo ?_ ?_ (by simp [Notifier.new])
  · -- announcements for `msgs` that were not unread stay; an unread one is served
    rintro (hsmall | hd | hd | hd | hd)
    · cases hev with
      | large | small => exact .inr (.inr (.inr (.inr rfl)))
      | medium hge hlt => exact absurd ⟨hsmall, medium_mem h hfew hge hlt⟩ hone
      | nothing hzero =>
        have hle := le_value hsmall
        rw [hzero, kNotifySmall] at hle
        omega
    · exact .inr (.inl hd)
    · exact .inr (.inr (.inl hd))
    · exact .inr (.inr (.inr (.inl hd)))
    · rw [hpc] at hd
      cases hd
  · rintro (hmedium | hd | hd)
    · have hle := le_value hmedium
      cases hev with
      | large | medium => exact .inr (.inr rfl)
      | small hlt => omega
      | nothing hzero =>
        rw [hzero, kNotifyMedium] at hle
        omega
    · exact .inr (.inl hd)
    · rw [hpc] at hd
      cases hd

/-- A message that was read does not touch the two queues. -/
theorem announced_handled {d : Bool} (h : Announced s) (hpc : s.loop = .reading d) (c : Conn)
    (raw : MsgRaw) (now : UInt64) : Announced (s.handle d c raw now) := by
  unfold handle
  split
  · split <;> exact h.advance hpc rfl rfl rfl rfl rfl
  · split
    · split <;> exact h.advance hpc rfl rfl rfl rfl rfl
    · exact h.advance hpc rfl rfl rfl rfl rfl

/-- The loop goes on without a change of the queues. -/
theorem announced_advanced {pc : LoopPc} (h : Announced s) (hpc : Advance s s.loop pc) :
    Announced { s with loop := pc } := by
  generalize hl : s.loop = l at hpc
  cases hpc <;> exact h.advance hl rfl rfl rfl rfl rfl

/-- **A step of the loop** serves what it has read of the counter: the size of the value tells which
    queues it is for. -/
theorem announced_loop {a : LoopAct} (h : Announced s) (hsep : Separate s (.loop a))
    (hm : LoopMove s a s') : Announced s' := by
  cases hm with
  | advanced a pc hpc => exact announced_advanced h hpc
  | polled active positive all pc hpc hnext =>
    rcases hnext with rfl | rfl <;> exact h.advance hpc rfl rfl rfl rfl rfl
  | retrieved pc hpc hev => exact announced_retrieved h hsep hpc hev
  | swappedClosures hpc =>
    refine ⟨fun hne => (h.msgs hne).move hpc rfl rfl, fun hne => absurd rfl hne, h.events, h.handed,
      ?_⟩
    have hx := h.executed
    rw [hpc] at hx
    simpa [LoopPc.todo] using hx
  | ranClosure fn todo hpc =>
    refine ⟨fun hne => (h.msgs hne).move hpc rfl rfl, fun hne => (h.closures hne).move hpc rfl rfl,
      h.events, h.handed, ?_⟩
    have hx := h.executed
    rw [hpc] at hx
    simpa [LoopPc.todo] using hx
  | swappedMsgs hpc =>
    refine ⟨fun hne => absurd rfl hne, fun hne => (h.closures hne).move hpc rfl rfl, h.events,
      ?_, ?_⟩
    · show s.publications = s.handed ++ s.msgs ++ []
      rw [List.append_nil]
      exact h.handed
    · have hx := h.executed
      rw [hpc] at hx
      exact hx
  | wrote msg todo c hpc | writeFailed ok msg todo hpc | acceptFailed hpc | accepted fd hpc
  | readFailed d stream now hpc | pushed d r w hpc | notified d w hpc | ended d hpc =>
    -- none of these positions serves a queue
    exact h.advance hpc rfl rfl rfl rfl rfl
  | handled d stream now c hpc hpeer hok => exact announced_handled h hpc c _ now
  | complained d hpc =>
    exact h.publish invalidMessage none rfl (by rw [hpc]; rfl) (.inr (.inr (.inr (.inr rfl))))
      (fun hd => hd.move hpc rfl rfl) rfl
  | complaintNotified d hpc =>
    refine h.notify (.inl rfl) rfl (by rw [hpc]; rfl) rfl (fun _ => .inl List.mem_cons_self) ?_
    intro hd
    refine hd.mono (List.subset_cons_self _ _) (fun h => h) ?_
    rw [hpc]
    nofun

/-- A step of another thread that touches neither the queues nor the counter. -/
theorem Announced.other (h : Announced s) (hq : s'.queues = s.queues) (hloop : s'.loop = s.loop)
    (hhub : s'.msghub = s.msghub) (hpubs : s'.pubs = s.pubs) (hsubmits : s'.submits = s.submits)
    (hwork : s.work = .published → s'.work = .published)
    (hping : s.ping = .published → s'.ping = .published) : Announced s' := by
  refine h.frame hq (by rw [hloop]) (fun hd => ?_) (fun hd => ?_) (by rw [hhub]; exact h.events)
  · exact hd.mono (by rw [hhub]; exact List.Subset.refl _) (by rw [hpubs]; exact fun h => h) hwork
      hping (by rw [hloop]; exact fun h => h)
  · exact hd.mono (by rw [hhub]; exact List.Subset.refl _) (by rw [hsubmits]; exact fun h => h)
      (by rw [hloop]; exact fun h => h)

/-- A step of the worker announces what it appends. -/
theorem announced_worker {a : WorkerAct} (h : Announced s) (hm : WorkerMove s a s') :
    Announced s' := by
  cases hm with
  | runner a b w hb hw => exact h.other rfl rfl rfl rfl rfl (fun h => h) (fun h => h)
  | started r todo hready hrun =>
    exact h.other rfl rfl rfl rfl rfl (by rw [hready]; nofun) (fun h => h)
  | inputRead r hpc => exact h.other rfl rfl rfl rfl rfl (by rw [hpc]; nofun) (fun h => h)
  | published r raw hpc =>
    exact h.publish raw (some r) rfl rfl (.inr (.inr (.inl rfl))) (fun hd => hd) rfl
  | notified hpc =>
    exact h.notify (.inl rfl) rfl rfl rfl (fun _ => .inl List.mem_cons_self)
      (fun hd => hd.mono (List.subset_cons_self _ _) (fun h => h) (fun h => h))

/-- So does a step of the timer thread. -/
theorem announced_ping {a : PingAct} (h : Announced s) (hm : PingMove s a s') : Announced s' := by
  cases hm with
  | idle now hpc hidle => exact h.other rfl rfl rfl rfl rfl (fun h => h) (fun h => h)
  | tested now hb pc hpc hbusy hnext =>
    exact h.other rfl rfl rfl rfl rfl (fun h => h) (by rw [hpc]; nofun)
  | disconnected hpc => exact h.other rfl rfl rfl rfl rfl (fun h => h) (by rw [hpc]; nofun)
  | published raw hpc =>
    exact h.publish raw none rfl rfl (.inr (.inr (.inr (.inl rfl)))) (fun hd => hd) rfl
  | notified hpc =>
    exact h.notify (.inl rfl) rfl rfl rfl (fun _ => .inl List.mem_cons_self)
      (fun hd => hd.mono (List.subset_cons_self _ _) (fun h => h) (fun h => h))

/-- **Every move keeps the queues announced**, if no read of the counter finds notifications of both
    kinds. -/
theorem announced_move {a : Act} (h : Announced s) (hsep : Separate s a) (hm : Move s a s') :
    Announced s' := by
  have hcons : ∀ event : Nat, s.msghub.unread ⊆ event :: s.msghub.unread :=
    fun event => List.subset_cons_self event _
  cases hm with
  | loop a s' hm => exact announced_loop h hsep hm
  | worker a s' hm => exact announced_worker h hm
  | ping a s' hm => exact announced_ping h hm
  -- a thread appends, and has yet to notify
  | pub k raw =>
    exact h.publish raw none rfl rfl (.inr (.inl (List.cons_ne_nil _ _))) (fun hd => hd) rfl
  -- it has notified: its event is among the unread ones
  | pubNotified k hk =>
    exact h.notify (.inl rfl) rfl rfl rfl (fun _ => .inl List.mem_cons_self)
      (fun hd => hd.mono (hcons _) (fun h => h) (fun h => h))
  | ignored => exact h
  | submitted k fn =>
    refine ⟨h.msgs, fun _ => .inr (.inl (List.cons_ne_nil _ _)), h.events, h.handed, ?_⟩
    show s.submitted ++ [fn] = s.executed ++ (s.loop.todo ++ (s.closures ++ [fn]))
    rw [h.executed]
    simp only [List.append_assoc]
  | submitNotified k hk =>
    exact h.notify (.inr (.inl rfl)) rfl rfl rfl
      (fun hd => hd.mono (hcons _) (fun h => h) (fun h => h) (fun h => h) (fun h => h))
      (fun _ => .inl List.mem_cons_self)
  | quit =>
    exact h.notify (.inr (.inr rfl)) rfl rfl rfl
      (fun hd => hd.mono (hcons _) (fun h => h) (fun h => h) (fun h => h) (fun h => h))
      (fun hd => hd.mono (hcons _) (fun h => h) (fun h => h))

/-! ### Whole runs -/

/-- **No lost wake-up.**  In every run in which no read of the counter finds both kinds of
    notifications: whenever the loop is blocked in `poll`, the counter is zero and no `pub` or
    `runOnLoop` is in progress, both queues are empty, every published message has been handed to
    the writer and every submitted closure has been run. -/
theorem listener_no_lost_wakeup (acts : List Act) (s : Listener)
    (h : exec step init acts = some s) (hsep : Along step Separate init acts)
    (hpoll : ∃ all, s.loop = .polling all) (hzero : s.msghub.value = 0) (hpubs : s.pubs = [])
    (hsubmits : s.submits = []) (hwork : s.work ≠ .published) (hping : s.ping ≠ .published) :
    s.msgs = [] ∧ s.closures = [] ∧ s.handed = s.publications ∧ s.executed = s.submitted := by
  have hinv : Announced s :=
    exec_invariant_along (fun _ _ _ hs ha hst => announced_move hs ha (move_of_step hst))
      announced_init hsep h
  obtain ⟨all, hpoll⟩ := hpoll
  -- nothing announces a message, so there is none
  have hmsgs : s.msgs = [] := by
    by_contra hne
    rcases hinv.msgs hne with hd | hd | hd | hd | hd
    · have hle := le_value hd
      rw [hzero, kNotifySmall] at hle
      omega
    · exact hd hpubs
    · exact hwork hd
    · exact hping hd
    · rw [hpoll] at hd
      cases hd
  -- and nothing announces a closure
  have hclosures : s.closures = [] := by
    by_contra hne
    rcases hinv.closures hne with hd | hd | hd
    · have hle := le_value hd
      rw [hzero, kNotifyMedium] at hle
      omega
    · exact hd hsubmits
    · rw [hpoll] at hd
      cases hd
  refine ⟨hmsgs, hclosures, ?_, ?_⟩
  · rw [hinv.handed, hmsgs, List.append_nil]
  · rw [hinv.executed, hpoll, hclosures]
    simp [LoopPc.todo]

/-- The loop is back in `poll` and nothing is under way. -/
def resting (s : Listener) : Bool :=
  decide (s.loop = .polling false) && s.msghub.value == 0 && s.pubs.isEmpty && s.submits.isEmpty &&
    decide (s.work = .ready ∧ s.ping = .outside)

/-- While the loop sleeps, thread 1 publishes a message and notifies. -/
def publishAsleep : List Act := nexts 1 ++ [.pub 1 ⟨MSGRESPONSE, []⟩, .pubNotify 1]

/-- The loop serves the message and goes back to `poll`. -/
def messageServed : List Act :=
  publishAsleep ++ [.loop (.poll false false), .loop .next, .loop .next, .loop (.write true)] ++
    nexts 5

/-- Before the loop wakes up, thread 2 also submits a closure. -/
def messageCoalesced : List Act :=
  publishAsleep ++ [.runOnLoop 2 (some (.other 0)), .runOnLoopNotify 2,
    .loop (.poll false false)] ++ nexts 9

/-- A message published while the loop sleeps is handed to the writer. -/
theorem listener_no_lost_wakeup_one_message :
    ∃ s, exec step init messageServed = some s ∧
      s.publications.length = 1 ∧ s.msgs = [] ∧ s.handed = s.publications := by
  obtain ⟨s, hs, hp⟩ := exists_of_exec_any (s := init)
    (p := fun s => resting s && s.publications.length == 1)
    (show (exec step _ messageServed).any _ = true by decide +kernel)
  simp only [resting, Bool.and_eq_true, decide_eq_true_eq, beq_iff_eq, List.isEmpty_iff] at hp
  obtain ⟨⟨⟨⟨⟨hpoll, hzero⟩, hpubs⟩, hsubmits⟩, hwork, hping⟩, hlen⟩ := hp
  obtain ⟨hmsgs, -, hhanded, -⟩ := listener_no_lost_wakeup _ s hs (by decide +kernel) ⟨_, hpoll⟩
    hzero hpubs hsubmits (by rw [hwork]; nofun) (by rw [hping]; nofun)
  exact ⟨s, hs, hlen, hmsgs, hhanded⟩

/-- **Coalesced notifications.**  A message and a closure arrive before the loop wakes up.  The sum
    of the two notifications is read as "closures"; the loop is back in `poll` with a zero counter,
    nobody is about to notify, and the message is still in `w.msgs`. -/
theorem coalesced_loses_message :
    ∃ s, exec step init messageCoalesced = some s ∧
      s.loop = .polling false ∧ s.msghub.value = 0 ∧ s.pubs = [] ∧ s.submits = [] ∧
      s.work = .ready ∧ s.ping = .outside ∧ s.msgs.length = 1 := by
  obtain ⟨s, hs, hp⟩ := exists_of_exec_any (s := init)
    (p := fun s => resting s && s.msgs.length == 1)
    (show (exec step _ messageCoalesced).any _ = true by decide +kernel)
  simp only [resting, Bool.and_eq_true, decide_eq_true_eq, beq_iff_eq, List.isEmpty_iff] at hp
  obtain ⟨⟨⟨⟨⟨hpoll, hzero⟩, hpubs⟩, hsubmits⟩, hwork, hping⟩, hlen⟩ := hp
  exact ⟨s, hs, hpoll, hzero, hpubs, hsubmits, hwork, hping, hlen⟩

end CPlayground.Monitor.Listener
