import CPlayground.Monitor.TimerRunner
import Mathlib.Tactic.Linarith

namespace CPlayground.Monitor.TRunner

open CPlayground.Trace

/-!
# `tRunner`: is the timer armed for the next task?

Between two batches `Run` sleeps in `poll`; what wakes it for the earliest task of the heap is the
timerfd.  Both `post` and `Run` choose the task to arm for while they hold the lock, and call
`timerfd_settime` with a relative time after they have released it.

* `Covered` — the invariant: while the heap is not empty, something that wakes `Run` in time is on
  its way.
* `timer_never_oversleeps` — as long as every arming is still right at the moment it takes effect
  (`Calm`), `Run` never sleeps past the earliest task.
* `idle_race_oversleeps` — without it: two first posts race, and the later task is armed last.
-/

/-! ### What wakes `Run` -/

/-- `Run` sleeps in `poll`, or has not reached it yet. -/
def RunPc.asleep : RunPc → Bool
  | .start | .poll => true
  | _ => false

/-- A notification, or an expiry that the loop has read, awaits `Run`. -/
def Notified (s : TRunner) : Prop := 0 < s.notifier.value ∨ s.forwarding = true

/-- Arming the timer for `task` with `ms` milliseconds from now covers the whole heap: the timer
    expires no later than the task is due, and no task of the heap is due earlier. -/
def Covers (s : TRunner) (task : TTask) (ms : UInt32) : Prop :=
  s.clock + ms.toNat ≤ task.runat ∧ ∀ u ∈ s.tasks, task.runat ≤ u.runat

instance (s : TRunner) : Decidable (Notified s) := inferInstanceAs (Decidable (_ ∨ _))

instance (s : TRunner) (task : TTask) (ms : UInt32) : Decidable (Covers s task ms) :=
  inferInstanceAs (Decidable (_ ∧ _))

/-- An arming by `post` for `t` is right, or not needed because `Run` is up or about to be. -/
def CalmPost (s : TRunner) (t : TTask) : Prop :=
  s.run.asleep = false ∨ Notified s ∨ Covers s t t.duration

/-- An arming by `Run` at the end of a batch is right, or not needed because it was notified. -/
def CalmRun (s : TRunner) (now : ℚ) (top : TTask) : Prop :=
  now + Timer.kLeastDuration ≤ top.runat →
    Notified s ∨ remaining top now ≠ 0 ∧ Covers s top (remaining top now)

/-- Every arming of the timer is still right at the moment it takes effect: nothing has come in
    between the choice of the task, under the lock, and the `timerfd_settime` behind it that would
    make it wrong. -/
def Calm (s : TRunner) : Act → Prop
  | .post k .armFirst | .post k .armTop =>
    match s.posts k with
    | .first t | .arming t => CalmPost s t
    | _ => True
  | .run .rearm =>
    match s.run with
    | .arming now top => CalmRun s now top
    | _ => True
  | _ => True

instance (s : TRunner) (t : TTask) : Decidable (CalmPost s t) :=
  inferInstanceAs (Decidable (_ ∨ _))

instance (s : TRunner) (now : ℚ) (top : TTask) : Decidable (CalmRun s now top) :=
  inferInstanceAs (Decidable (_ → _))

instance decidableCalm (s : TRunner) : (a : Act) → Decidable (Calm s a)
  | .post k .armFirst | .post k .armTop =>
    match hk : s.posts k with
    | .first t | .arming t => decidable_of_iff (CalmPost s t) (by simp only [Calm, hk])
    | .outside | .marking _ | .pushing _ | .testing _ | .working _ | .peeking _ | .undefined =>
      .isTrue (by simp only [Calm, hk])
  | .run .rearm =>
    match hr : s.run with
    | .arming now top => decidable_of_iff (CalmRun s now top) (by simp only [Calm, hr])
    | .start | .poll | .retrieved | .collecting .. | .running .. | .stamped .. | .finishing ..
    | .idling | .exited => .isTrue (by simp only [Calm, hr])
  | .post _ .mark | .post _ .push | .post _ .test | .post _ .setWork | .post _ (.peek _)
  | .post _ .peekEmpty => .isTrue trivial
  | .run .begin | .run .interrupted | .run .retrieve | .run .lock | .run (.collect _)
  | .run .unlock | .run .runTask | .run .stamp | .run .relock | .run .finish | .run .disarm
  | .run .idle | .run (.peekTop _) => .isTrue trivial
  | .call .. | .cancel _ | .tick _ | .expire | .readTimer | .forward | .stop => .isTrue trivial

/-- The task of a `post` that is in the heap and that the thread may still arm the timer for. -/
def PostPc.arms : PostPc → Option TTask
  | .testing t | .first t | .peeking t | .arming t => some t
  | _ => none

/-- Something wakes `Run` for the earliest task of the heap. -/
def Woken (s : TRunner) : Prop :=
  (∃ x, s.timer.expiry = some x ∧ ∀ t ∈ s.tasks, x ≤ t.runat) ∨
    s.timer.expired = true ∨ s.run.asleep = false ∨ Notified s ∨
    ∃ k t, (s.posts k).arms = some t ∧ IsTop s.tasks t

/-- The invariant of the arming protocol: while there is a task, something is on its way that wakes
    `Run` in time, and `Run` only goes idle when there is none. -/
structure Covered (s : TRunner) : Prop where
  woken : s.tasks ≠ [] → Woken s
  idling : s.run = .idling → s.tasks = []
  -- the timer is never armed with zero, which would disarm it
  long : ∀ k t, s.posts k = .first t ∨ s.posts k = .peeking t ∨ s.posts k = .arming t →
    Timer.kLeastDuration ≤ t.duration.toNat

variable {s s' : TRunner}

/-- The heap is empty. -/
theorem covered_init (clock : ℚ) : Covered (init clock) where
  woken := fun h => absurd rfl h
  idling := by simp [init]
  long := by simp [init]

/-! ### Lemmas -/

/-- `Timer::reset` with a number of milliseconds other than zero arms the timer at that distance. -/
theorem reset_millis {ms : UInt32} (h : 0 < ms.toNat) (clock : ℚ) :
    (Timer.reset (.millis ms) clock).expiry = some (clock + ms.toNat) := by
  have hns : Timer.timespec 0 ms = ms.toNat * 10 ^ 6 := by
    have hlt := ms.toNat_lt
    unfold Timer.timespec
    split
    · have hdiv := Nat.div_add_mod ms.toNat 1000
      have hmod : ((0 : UInt32).toNat + ms.toNat / 1000) % 2 ^ 32 = ms.toNat / 1000 := by
        rw [UInt32.toNat_zero, Nat.zero_add]
        exact Nat.mod_eq_of_lt (by omega)
      rw [hmod]
      omega
    · simp
  have hne : Timer.timespec 0 ms ≠ 0 := by rw [hns]; positivity
  show (if Timer.timespec 0 ms = 0 then none else some (clock + Timer.timespec 0 ms / 10 ^ 6)) = _
  have hms : ((ms.toNat * 10 ^ 6 : ℕ) : ℚ) / 10 ^ 6 = ms.toNat := by
    push_cast
    rw [mul_div_assoc]
    norm_num
  rw [if_neg hne, hns, hms]

/-- An arming that covers the heap wakes `Run` for it. -/
theorem woken_of_covers {t : TTask} {ms : UInt32} (hms : 0 < ms.toNat) (h : Covers s t ms)
    (htimer : s'.timer = Timer.reset (.millis ms) s.clock) (htasks : s'.tasks = s.tasks) :
    Woken s' := by
  refine .inl ⟨s.clock + ms.toNat, ?_, ?_⟩
  · rw [htimer, reset_millis hms]
  · intro u hu
    rw [htasks] at hu
    exact h.1.trans (h.2 u hu)

/-- A write to the eventfd wakes the thread. -/
theorem notified_of_notify {event : Nat} (hpos : 0 < event)
    (h : s'.notifier = ⟨event :: s.notifier.unread⟩) : Notified s' := by
  refine .inl ?_
  rw [h, Notifier.value_cons]
  omega

/-- While `Run` is up, nothing else is needed to wake it. -/
theorem woken_of_up (h : s.run.asleep = false) : Woken s := .inr (.inr (.inl h))

/-- A thread that is notified is woken. -/
theorem woken_of_notified (h : Notified s) : Woken s := .inr (.inr (.inr (.inl h)))

/-- A step that touches neither the heap, the timer, `Run` nor the notifications, and keeps the
    threads that may still arm, keeps `Run` woken. -/
theorem Woken.frame (h : Woken s) (htasks : s'.tasks = s.tasks) (htimer : s'.timer = s.timer)
    (hrun : s'.run.asleep = s.run.asleep) (hnote : Notified s' ↔ Notified s)
    (hposts : ∀ k t, (s.posts k).arms = some t → IsTop s.tasks t → (s'.posts k).arms = some t) :
    Woken s' := by
  unfold Woken
  rw [htasks, htimer, hrun]
  rcases h with h | h | h | h | ⟨k, t, hk, ht⟩
  · exact .inl h
  · exact .inr (.inl h)
  · exact .inr (.inr (.inl h))
  · exact .inr (.inr (.inr (.inl (hnote.mpr h))))
  · exact .inr (.inr (.inr (.inr ⟨k, t, hposts k t hk ht, ht⟩)))

/-- `arms` at the threads other than the one that moves. -/
theorem arms_update {posts : Tid → PostPc} {k k' : Tid} {pc : PostPc} {t : TTask}
    (hself : k' = k → pc.arms = some t) (hother : k' ≠ k → (posts k').arms = some t) :
    (Function.update posts k pc k').arms = some t := by
  by_cases hk : k' = k
  · subst hk
    rw [Function.update_self]
    exact hself rfl
  · rw [Function.update_of_ne hk]
    exact hother hk

/-- A thread that moves to `pc` keeps `long` if `pc` does. -/
theorem long_update (h : Covered s) {k : Tid} {pc : PostPc}
    (hpc : ∀ t, pc = .first t ∨ pc = .peeking t ∨ pc = .arming t →
      Timer.kLeastDuration ≤ t.duration.toNat) (k' : Tid) (t : TTask) :
    (Function.update s.posts k pc k' = .first t ∨ Function.update s.posts k pc k' = .peeking t ∨
      Function.update s.posts k pc k' = .arming t) → Timer.kLeastDuration ≤ t.duration.toNat := by
  intro hk'
  by_cases hk : k' = k
  · subst hk
    rw [Function.update_self] at hk'
    exact hpc t hk'
  · rw [Function.update_of_ne hk] at hk'
    exact h.long k' t hk'

/-- What wakes `Run`, apart from the threads that may still arm the timer. -/
def waking (s : TRunner) : List TTask × Timer × RunPc × Notifier × Bool :=
  (s.tasks, s.timer, s.run, s.notifier, s.forwarding)

/-- A thread moves from `pc` to `pc'`, and may still arm the timer if it could before. -/
theorem Covered.moved (h : Covered s) {k : Tid} {pc pc' : PostPc} (hpc : s.posts k = pc)
    (hposts : s'.posts = Function.update s.posts k pc') (hwaking : s'.waking = s.waking)
    (harms : ∀ t, pc.arms = some t → pc'.arms = some t)
    (hlong : ∀ t, pc' = .first t ∨ pc' = .peeking t ∨ pc' = .arming t →
      Timer.kLeastDuration ≤ t.duration.toNat) : Covered s' := by
  simp only [waking, Prod.mk.injEq] at hwaking
  obtain ⟨htasks, htimer, hrun, hnotifier, hforwarding⟩ := hwaking
  refine ⟨?_, by rw [hrun, htasks]; exact h.idling, by rw [hposts]; exact long_update h hlong⟩
  rw [htasks]
  refine fun hne => (h.woken hne).frame htasks htimer (by rw [hrun]) ?_ ?_
  · rw [Notified, Notified, hnotifier, hforwarding]
  · intro k' u hu _
    rw [hposts]
    refine arms_update (fun hk => harms u ?_) (fun _ => hu)
    rwa [hk, hpc] at hu

/-! ### Every step keeps the invariant -/

/-- A push: the new task is the earliest one and its thread has yet to look, or what wakes `Run` for
    the earlier ones wakes it in time for this one. -/
theorem woken_pushed {k : Tid} {t : TTask} (h : Covered s) (hpc : s.posts k = .pushing t) :
    Woken { s with tasks := t :: s.tasks, posts := Function.update s.posts k (.testing t) } := by
  -- the new task is the next one, and its thread is about to arm the timer
  by_cases hmin : ∀ u ∈ s.tasks, t.runat ≤ u.runat
  · refine .inr (.inr (.inr (.inr ⟨k, t, arms_update (fun _ => rfl) (absurd rfl), ?_, ?_⟩)))
    · exact List.mem_cons_self
    · intro u hu
      rcases List.mem_cons.mp hu with rfl | hu
      · exact le_refl _
      · exact hmin u hu
  · push Not at hmin
    -- another task is earlier, and what wakes the runner for it is early enough
    obtain ⟨u, hu, hlt⟩ := hmin
    rcases h.woken (List.ne_nil_of_mem hu) with
      ⟨x, hx, hall⟩ | hexp | hup | hnote | ⟨k', t', ht', htop⟩
    · refine .inl ⟨x, hx, fun v hv => ?_⟩
      rcases List.mem_cons.mp hv with rfl | hv
      · exact (hall u hu).trans hlt.le
      · exact hall v hv
    · exact .inr (.inl hexp)
    · exact woken_of_up hup
    · exact woken_of_notified hnote
    · refine .inr (.inr (.inr (.inr ⟨k', t', arms_update ?_ (fun _ => ht'), ?_, ?_⟩)))
      -- the thread that is about to arm is not the one that has pushed
      · intro hk
        rw [hk, hpc] at ht'
        cases ht'
      · exact List.mem_cons_of_mem _ htop.1
      · intro v hv
        rcases List.mem_cons.mp hv with rfl | hv
        · exact (htop.2 u hu).trans hlt.le
        · exact htop.2 v hv

/-- An arming by `post`. -/
theorem woken_armed {t : TTask} (h : CalmPost s t)
    (hlong : Timer.kLeastDuration ≤ t.duration.toNat)
    (htimer : s'.timer = Timer.reset (.millis t.duration) s.clock) (htasks : s'.tasks = s.tasks)
    (hrun : s'.run = s.run) (hnote : Notified s' ↔ Notified s) : Woken s' := by
  rcases h with h | h | h
  · exact woken_of_up (hrun ▸ h)
  · exact woken_of_notified (hnote.mpr h)
  · refine woken_of_covers ?_ h htimer htasks
    unfold Timer.kLeastDuration at hlong
    omega

/-- A step of `post` covers its own task before it lets go of the lock. -/
theorem covered_post {k : Tid} {a : PostAct} (h : Covered s) (hcalm : Calm s (.post k a))
    (hm : PostMove s k a s') : Covered s' := by
  have hpos : 0 < Notifier.kNotifyOne := by decide
  cases hm with
  | marked t hpc | worked t hpc => exact h.moved hpc rfl rfl nofun (by simp)
  | pushed t hpc hlock =>
    refine ⟨fun _ => woken_pushed h hpc, ?_, long_update h (by simp)⟩
    -- `idling` holds the lock, so nothing was pushed
    intro hidle
    rw [show s.run = .idling from hidle] at hlock
    cases hlock
  | immediate t hpc =>
    exact ⟨fun _ => woken_of_notified (notified_of_notify hpos rfl), h.idling,
      long_update h (by simp)⟩
  | sawIdle t hpc hlong | sawBusy t hpc hlong =>
    refine h.moved hpc rfl rfl (fun _ hu => hu) ?_
    rintro u (hu | hu | hu) <;> cases hu
    exact hlong
  | armedFirst t hpc =>
    have hc : CalmPost s t := by simpa only [Calm, hpc] using hcalm
    exact ⟨fun _ => woken_armed hc (h.long k t (.inl hpc)) rfl rfl rfl .rfl, h.idling,
      long_update h (by simp)⟩
  | isTop t top hpc htop heq =>
    refine h.moved hpc rfl rfl (fun _ hu => hu) ?_
    rintro u (hu | hu | hu) <;> cases hu
    exact h.long k t (.inr (.inl hpc))
  | notTop t top hpc htop hne =>
    refine ⟨fun hnil => (h.woken hnil).frame rfl rfl rfl .rfl ?_, h.idling, long_update h (by simp)⟩
    intro k' u hu hmin
    refine arms_update (fun hk => ?_) (fun _ => hu)
    -- the thread leaves only when its task is not the earliest
    rw [hk, hpc] at hu
    cases hu
    exact absurd (le_antisymm (htop.2 t hmin.1) (hmin.2 top htop.1)) hne
  | noTop t hpc hempty => exact ⟨fun hne => absurd hempty hne, h.idling, long_update h (by simp)⟩
  | armedTop t hpc =>
    have hc : CalmPost s t := by simpa only [Calm, hpc] using hcalm
    exact ⟨fun _ => woken_armed hc (h.long k t (.inr (.inr hpc))) rfl rfl rfl .rfl, h.idling,
      long_update h (by simp)⟩

/-- A step of `Run` covers the earliest task that it leaves in the heap. -/
theorem covered_run {a : RunAct} (h : Covered s) (hcalm : Calm s (.run a)) (hm : RunMove s a s') :
    Covered s' := by
  have hpos : 0 < Notifier.kNotifyOne := by decide
  cases hm with
  | begun hpc =>
    refine ⟨fun hne => (h.woken hne).frame rfl rfl ?_ .rfl (fun _ _ hu _ => hu), by simp, h.long⟩
    rw [hpc]
    rfl
  | interrupted => exact h
  | quit | retrieved | locked | taken | cleared | unlocked | ranTask | stamped | relocked
  | repushed | dropped | peeked =>
    exact ⟨fun _ => woken_of_up (by first | rfl | simp_all [RunPc.asleep]), by simp_all, h.long⟩
  | disarmed now hpc hempty => exact ⟨fun hne => absurd hempty hne, fun _ => hempty, h.long⟩
  | idled hpc => exact ⟨fun hne => absurd (h.idling hpc) hne, by simp, h.long⟩
  | again now top hpc =>
    exact ⟨fun _ => woken_of_notified (notified_of_notify hpos rfl), by simp, h.long⟩
  | rearmed now top hpc hdue =>
    have hc : CalmRun s now top := by simpa only [Calm, hpc] using hcalm
    refine ⟨fun _ => ?_, by simp, h.long⟩
    rcases hc hdue with hnote | ⟨hne, hcov⟩
    · exact woken_of_notified hnote
    · exact woken_of_covers (Nat.pos_of_ne_zero fun h0 => hne (UInt32.toNat_inj.mp h0)) hcov rfl rfl

/-- **A calm move keeps the tasks covered**: by the threads that post, by `Run` itself, by the
    timer, or by an event that is not read yet. -/
theorem covered_move {a : Act} (h : Covered s) (hcalm : Calm s a) (hm : Move s a s') :
    Covered s' := by
  have hone : 0 < Notifier.kNotifyOne := by decide
  have hquit : 0 < Notifier.kNotifyQuit := by decide
  cases hm with
  | called k task hpc hrunat hcall => exact h.moved hpc rfl rfl nofun (by simp)
  | post k a s' hm => exact covered_post h hcalm hm
  | run a s' hm => exact covered_run h hcalm hm
  | woken | forwarded =>
    exact ⟨fun _ => woken_of_notified (notified_of_notify hone rfl), h.idling, h.long⟩
  | stopped => exact ⟨fun _ => woken_of_notified (notified_of_notify hquit rfl), h.idling, h.long⟩
  | cancelled | ticked =>
    exact ⟨fun hne => (h.woken hne).frame rfl rfl rfl .rfl (fun _ _ hu _ => hu), h.idling, h.long⟩
  | ignored => exact h
  | expired x harm => exact ⟨fun _ => .inr (.inl rfl), h.idling, h.long⟩
  | timerRead hexp => exact ⟨fun _ => woken_of_notified (.inr rfl), h.idling, h.long⟩

/-! ### Whole runs -/

/-- **`Run` never oversleeps.**  In every run whose armings are all still right when they take
    effect: when no `post` is in progress, `Run` sleeps in `poll` with nothing to read, and no
    expiry waits to be forwarded, the timer is armed no later than the earliest task is due. -/
theorem timer_never_oversleeps (clock : ℚ) (acts : List Act) (s : TRunner)
    (h : exec step (init clock) acts = some s) (hcalm : Along step Calm (init clock) acts)
    (hposts : ∀ k, s.posts k = .outside) (hpoll : s.run = .poll) (hzero : s.notifier.value = 0)
    (hexpired : s.timer.expired = false) (hforward : s.forwarding = false)
    (top : TTask) (htop : IsTop s.tasks top) :
    ∃ x, s.timer.expiry = some x ∧ x ≤ top.runat := by
  have hcov : Covered s :=
    exec_invariant_along (fun _ _ _ hs ha hst => covered_move hs ha (move_of_step hst))
      (covered_init clock) hcalm h
  rcases hcov.woken (List.ne_nil_of_mem htop.1) with
    ⟨x, hx, hall⟩ | hexp | hup | hnote | ⟨k, t, ht, -⟩
  · exact ⟨x, hx, hall top htop.1⟩
  · rw [hexpired] at hexp
    cases hexp
  · rw [hpoll] at hup
    cases hup
  · rcases hnote with hnote | hnote
    · omega
    · rw [hforward] at hnote
      cases hnote
  · rw [hposts k] at ht
    cases ht

/-- The thread that takes a step of `post`. -/
def Act.thread : Act → Option Tid
  | .call k _ | .post k _ => some k
  | _ => none

/-- A thread that posts does not move another one. -/
theorem posts_of_postMove {k k' : Tid} {a : PostAct} (hm : PostMove s k a s') (hk : k' ≠ k) :
    s'.posts k' = s.posts k' := by
  cases hm <;> exact Function.update_of_ne hk _ _

/-- A thread that takes no step in a run stays outside `post`. -/
theorem posts_of_exec {acts : List Act} {k : Tid} (h : exec step s acts = some s')
    (hk : ∀ a ∈ acts, a.thread ≠ some k) : s'.posts k = s.posts k := by
  induction acts generalizing s with
  | nil => cases h; rfl
  | cons a acts ih =>
    obtain ⟨u, hu, hrest⟩ := exec_cons_eq_some.mp h
    rw [ih hrest fun b hb => hk b (List.mem_cons_of_mem _ hb)]
    have hne := hk a List.mem_cons_self
    cases move_of_step hu with
    | called k' task hpc hrunat hcall =>
      exact Function.update_of_ne (fun heq : k = k' => hne (heq ▸ rfl)) _ _
    | post k' a s' hm => exact posts_of_postMove hm (fun heq : k = k' => hne (heq ▸ rfl))
    | run a s' hm => cases hm <;> rfl
    | woken | cancelled | ignored | ticked | expired | timerRead | forwarded | stopped => rfl

/-- A once task posted at time 0, due after `ms`. -/
def dueIn (ms : UInt32) : TTask := ⟨0, ms.toNat, ms, TIMERTASK_ONCE, true, false⟩

/-- A call of `post` up to the test of the runner's state. -/
def postUpToTest (k : Tid) (t : TTask) : List Act :=
  [.call k t, .post k .mark, .post k .push, .post k .test]

/-- `Run` sleeps and nothing is under way that would wake it. -/
def settled (s : TRunner) : Bool :=
  decide (s.run = .poll) && s.notifier.value == 0 && !s.timer.expired && !s.forwarding

/-- One post after the other: the second task is due first and re-arms the timer. -/
def postsApart : List Act :=
  .run .begin :: (postUpToTest 0 (dueIn 1000) ++ [.post 0 .armFirst, .post 0 .setWork] ++
    postUpToTest 1 (dueIn 100) ++ [.post 1 (.peek { dueIn 100 with id := 2 }), .post 1 .armTop])

/-- Both posts find the runner idle, and the later task is armed last. -/
def postsTogether : List Act :=
  .run .begin :: (postUpToTest 0 (dueIn 100) ++ postUpToTest 1 (dueIn 1000) ++
    [.post 0 .armFirst, .post 0 .setWork, .post 1 .armFirst, .post 1 .setWork])

/-- The timer is armed for the earlier of two tasks. -/
theorem timer_never_oversleeps_two_posts :
    ∃ s, exec step (init 0) postsApart = some s ∧ ∃ x, s.timer.expiry = some x ∧ x ≤ 100 := by
  obtain ⟨s, hs, hp⟩ := exists_of_exec_any (s := init 0)
    (p := fun s => settled s && decide (s.posts 0 = .outside ∧ s.posts 1 = .outside) &&
      decide (IsTop s.tasks { dueIn 100 with id := 2 }))
    (show (exec step _ postsApart).any _ = true by decide +kernel)
  simp only [settled, Bool.and_eq_true, decide_eq_true_eq, beq_iff_eq, Bool.not_eq_true'] at hp
  obtain ⟨⟨⟨⟨⟨hpoll, hzero⟩, hexp⟩, hfwd⟩, h0, h1⟩, htop⟩ := hp
  refine ⟨s, hs,
    timer_never_oversleeps 0 _ s hs (by decide +kernel) ?_ hpoll hzero hexp hfwd _ htop⟩
  intro k
  match k with
  | 0 => exact h0
  | 1 => exact h1
  | k + 2 => exact posts_of_exec hs (by simp [postsApart, postUpToTest, Act.thread])

/-- **The idle race.**  Both posts find the runner idle; the one due after 100 ms arms the timer
    first and the one due after 1000 ms last.  `Run` then sleeps 900 ms past the first task. -/
theorem idle_race_oversleeps :
    ∃ s, exec step (init 0) postsTogether = some s ∧
      (∀ k, s.posts k = .outside) ∧ s.run = .poll ∧ s.notifier.value = 0 ∧
      s.timer.expired = false ∧ s.forwarding = false ∧
      ∃ top, IsTop s.tasks top ∧ top.runat = 100 ∧ s.timer.expiry = some 1000 := by
  obtain ⟨s, hs, hp⟩ := exists_of_exec_any (s := init 0)
    (p := fun s => settled s && decide (s.posts 0 = .outside ∧ s.posts 1 = .outside) &&
      decide (IsTop s.tasks { dueIn 100 with id := 1 } ∧ s.timer.expiry = some 1000))
    (show (exec step _ postsTogether).any _ = true by decide +kernel)
  simp only [settled, Bool.and_eq_true, decide_eq_true_eq, beq_iff_eq, Bool.not_eq_true'] at hp
  obtain ⟨⟨⟨⟨⟨hpoll, hzero⟩, hexp⟩, hfwd⟩, h0, h1⟩, htop, hexpiry⟩ := hp
  refine ⟨s, hs, ?_, hpoll, hzero, hexp, hfwd, _, htop, by decide +kernel, hexpiry⟩
  intro k
  match k with
  | 0 => exact h0
  | 1 => exact h1
  | k + 2 => exact posts_of_exec hs (by simp [postsTogether, postUpToTest, Act.thread])

end CPlayground.Monitor.TRunner
