import CPlayground.Relay.Collector.HandOver

namespace CPlayground.Relay.Collector

open CPlayground.Trace

/-!
# `Collector`: shutting down

`quit` writes `"QUIT"` to the socket pair and waits for the thread of `Consume`.  `HandlerInterrupt`
calls it in the thread of `Produce`, the thread that also calls `addPayload`; `Produce` sees the
terminator, and sets `state_` to `DONE`, only after that.  So while `quit` waits there are no steps
but those of `Consume`.

* `HandOver.Running` — before `quit`, `Consume` is in its loop and the socket pair has nothing but
  `READY_CHAR`s.
* `HandOver.graceful_quit` — `Consume` ends, and it has then iterated over every payload that was
  added before `quit`.
-/

namespace HandOver

variable {τ α : Type} {s s' : HandOver τ α}

/-- The steps before `quit`: `state_` changes with the connection only. -/
def BeforeQuit : Act τ α → Prop
  | .quit           => False
  | .setState state => state ≠ .DONE
  | _               => True

/-- `Consume` is in its loop, and nothing has told it to leave. -/
structure Running (s : HandOver τ α) : Prop where
  chars : ∀ c ∈ s.chars, c = READY_CHAR
  state : s.state ≠ .DONE
  pc : s.pc ≠ .exited

/-- `Consume` has not begun. -/
theorem running_init : Running ({} : HandOver τ α) :=
  ⟨fun _ h => absurd h List.not_mem_nil, nofun, nofun⟩

/-- What `Consume` does to the rest of the state: the state of the connection and the other threads
    are as before, and of the characters it only takes from the front. -/
theorem consume_frame (h : consume s = some s') :
    s'.state = s.state ∧ s'.waking = s.waking ∧ s'.appended = s.appended ∧
      s'.chars <:+ s.chars := by
  unfold consume at h
  split at h
  · cases h
    exact ⟨rfl, rfl, rfl, List.suffix_refl _⟩
  · split at h
    · cases h
    · cases h
      rename_i hchars
      rw [hchars]
      exact ⟨rfl, rfl, rfl, List.suffix_cons _ _⟩
  · cases h
    exact ⟨rfl, rfl, rfl, List.suffix_refl _⟩
  · split at h
    · cases h
      exact ⟨rfl, rfl, rfl, List.suffix_refl _⟩
    · cases h
      exact ⟨rfl, rfl, rfl, List.suffix_refl _⟩
  · cases h

/-- `Consume` leaves its loop only for `DONE` or for a character other than `READY_CHAR`. -/
theorem consume_pc (h : consume s = some s') (hstate : s.state ≠ .DONE)
    (hchars : ∀ c cs, s.chars = c :: cs → c = READY_CHAR) : s'.pc ≠ .exited := by
  unfold consume at h
  split at h
  · cases h
    simp [hstate]
  · split at h
    · cases h
    · cases h
      rename_i c cs hcs
      simp [hchars c cs hcs]
  · cases h
    dsimp only
    split <;> simp
  · split at h
    · cases h
      simp
    · cases h
      simp
  · cases h

/-- **One step before `quit`** leaves `Consume` in its loop, and writes nothing but a
    `READY_CHAR`. -/
theorem running_step [DecidableEq τ] {a : Act τ α} (h : Running s) (ha : BeforeQuit a)
    (hst : step s a = some s') : Running s' := by
  cases a with
  | append t payload =>
    simp only [step, Option.ite_none_left_eq_some, Option.some.injEq] at hst
    obtain ⟨-, rfl⟩ := hst
    exact ⟨h.chars, h.state, h.pc⟩
  | wake t =>
    simp only [step, Option.ite_none_right_eq_some, Option.some.injEq] at hst
    obtain ⟨-, rfl⟩ := hst
    refine ⟨fun c hc => ?_, h.state, h.pc⟩
    rcases List.mem_append.mp hc with hc | hc
    · exact h.chars c hc
    · exact List.mem_singleton.mp hc
  | quit => exact ha.elim
  | setState state =>
    cases hst
    exact ⟨h.chars, ha, h.pc⟩
  | consume =>
    obtain ⟨hstate, -, -, hchars⟩ := consume_frame hst
    refine ⟨fun c hc => h.chars c (hchars.subset hc), hstate ▸ h.state, ?_⟩
    exact consume_pc hst h.state fun c cs hcs => h.chars c (hcs ▸ List.mem_cons_self)

/-! ### While `quit` waits -/

/-- `quit` waits: `Consume` is in its loop, with some `READY_CHAR`s before `"QUIT"`, or it has left
    the loop and has nothing left to do. -/
structure Quitting (s : HandOver τ α) : Prop where
  sound : Sound s
  state : s.state ≠ .DONE
  waking : s.waking = []
  chars : s.pc ≠ .exited → ∃ n, s.chars = List.replicate n READY_CHAR ++ QUIT
  exited : s.pc = .exited → s.pending = [] ∧ s.pv = []

/-- How far `Consume` is from its end: the characters, the payloads, and where it is. -/
def distance (s : HandOver τ α) : Nat :=
  4 * s.chars.length + (s.pending ++ s.pv).length +
    match s.pc with
    | .reading | .exited => 0
    | .top               => 1
    | .iterating _       => 2
    | .ready             => 3

/-- When `Consume` comes to the `"QUIT"`, no `READY_CHAR` is left and nobody is about to write one,
    so there is nothing in `pv`. -/
theorem Quitting.pv_eq_nil (h : Quitting s) (hpc : s.pc = .reading) (hchars : s.chars = QUIT) :
    s.pv = [] := by
  by_contra hne
  rcases h.sound.announced hne with (hready | hwaking) | hready | hexited
  · rw [hchars] at hready
    exact absurd hready (by decide)
  · exact hwaking h.waking
  · rw [hpc] at hready
    cases hready
  · rw [hpc] at hexited
    cases hexited

/-- A step of `Consume` while `quit` waits: it is never blocked, keeps the invariant, and comes
    nearer to its end. -/
theorem quitting_consume (h : Quitting s) (hpc : s.pc ≠ .exited) :
    ∃ s', consume s = some s' ∧ Quitting s' ∧ distance s' < distance s := by
  obtain ⟨n, hchars⟩ := h.chars hpc
  have hsound := h.sound
  cases hp : s.pc with
  | top =>
    have hst : consume s = some { s with pc := .reading } := by
      simp only [consume, hp, if_neg h.state]
    refine ⟨_, hst, ⟨sound_consume hsound hst, h.state, h.waking, fun _ => ⟨n, hchars⟩, ?_⟩, ?_⟩
    · rintro ⟨⟩
    · simp [distance, pending, hp]
  | reading =>
    cases n with
    -- the `"QUIT"` is next
    | zero =>
      have hst : consume s = some { s with chars := ['U', 'I', 'T', '\x00'], pc := .exited } := by
        simp only [consume, hp, hchars]
        rfl
      have hpv := h.pv_eq_nil hp hchars
      refine ⟨_, hst, ⟨sound_consume hsound hst, h.state, h.waking, fun hne => absurd rfl hne,
        fun _ => ⟨rfl, hpv⟩⟩, ?_⟩
      simp [distance, pending, hp, hchars, QUIT]
    -- a `READY_CHAR` is next, and there is one less of them
    | succ n =>
      have hst : consume s
          = some { s with chars := List.replicate n READY_CHAR ++ QUIT, pc := .ready } := by
        simp only [consume, hp, hchars, List.replicate_succ, List.cons_append, if_true]
      refine ⟨_, hst, ⟨sound_consume hsound hst, h.state, h.waking, fun _ => ⟨n, rfl⟩, ?_⟩, ?_⟩
      · rintro ⟨⟩
      · simp [distance, pending, hp, hchars, QUIT]
        omega
  | ready =>
    -- the swap moves the payloads, and there are as many of them as before
    have hcv : s.cv = [] := hsound.cleared (by simp [hp])
    have hst : consume s = some { s with
        cv := s.pv, pv := s.cv, pc := if s.pv = [] then .top else .iterating 0 } := by
      simp only [consume, hp]
    refine ⟨_, hst, ⟨sound_consume hsound hst, h.state, h.waking, fun _ => ⟨n, hchars⟩, ?_⟩, ?_⟩
    · intro hexited
      dsimp only at hexited
      split at hexited <;> cases hexited
    · by_cases hpv : s.pv = []
      · simp [distance, pending, hp, hpv, hcv]
      · simp [distance, pending, hp, hpv, hcv]
  | iterating i =>
    -- the loop over `cv`
    cases hget : s.cv[i]? with
    | some payload =>
      have hst : consume s = some { s with
          pc := .iterating (i + 1)
          iterated := s.iterated ++ [payload]
          sent := if s.state = .READY then s.sent ++ [payload] else s.sent } := by
        simp only [consume, hp, hget]
      refine ⟨_, hst, ⟨sound_consume hsound hst, h.state, h.waking, fun _ => ⟨n, hchars⟩, ?_⟩, ?_⟩
      · rintro ⟨⟩
      · have hdrop := List.drop_eq_getElem?_toList_append (l := s.cv) (i := i)
        rw [hget] at hdrop
        simp only [distance, pending, hp, hdrop]
        simp
    | none =>
      have hst : consume s = some { s with cv := [], pc := .top } := by
        simp only [consume, hp, hget]
      refine ⟨_, hst, ⟨sound_consume hsound hst, h.state, h.waking, fun _ => ⟨n, hchars⟩, ?_⟩, ?_⟩
      · rintro ⟨⟩
      · simp only [distance, pending, hp, List.nil_append, List.length_append]
        omega
  | exited => exact absurd hp hpc

/-- What `Consume` iterates over in `READY` is sent, in the same step. -/
theorem consume_sent (h : consume s = some s') (hstate : s.state = .READY) :
    ∃ more, s'.iterated = s.iterated ++ more ∧ s'.sent = s.sent ++ more := by
  have hnone : s'.iterated = s.iterated → s'.sent = s.sent →
      ∃ more, s'.iterated = s.iterated ++ more ∧ s'.sent = s.sent ++ more :=
    fun hiterated hsent => ⟨[], by simp [hiterated], by simp [hsent]⟩
  unfold consume at h
  split at h
  · cases h
    exact hnone rfl rfl
  · split at h
    · cases h
    · cases h
      exact hnone rfl rfl
  · cases h
    exact hnone rfl rfl
  · split at h
    · cases h
      exact ⟨_, rfl, if_pos hstate⟩
    · cases h
      exact hnone rfl rfl
  · cases h

/-- From `s`, when `quit` is called, to `t`: nothing is added, and with a connection at `quit`
    whatever is iterated over from then on is sent. -/
structure Draining (s t : HandOver τ α) : Prop where
  quitting : Quitting t
  appended : t.appended = s.appended
  sent : s.state = .READY → t.state = .READY ∧
    ∃ more, t.iterated = s.iterated ++ more ∧ t.sent = s.sent ++ more

/-- **A step of `Consume` after `quit`** is possible until it has left its loop, and brings it
    nearer to the end of the loop; what it iterates over is sent. -/
theorem draining_consume [DecidableEq τ] {t : HandOver τ α} (h : Draining s t)
    (hpc : t.pc ≠ .exited) :
    ∃ t', step t .consume = some t' ∧ Draining s t' ∧ distance t' < distance t := by
  obtain ⟨t', hst, hq, hlt⟩ := quitting_consume h.quitting hpc
  obtain ⟨hstate, -, happended, -⟩ := consume_frame hst
  refine ⟨t', hst, ⟨hq, happended.trans h.appended, fun hready => ?_⟩, hlt⟩
  obtain ⟨htstate, more, hmore, hmore'⟩ := h.sent hready
  obtain ⟨rest, hrest, hrest'⟩ := consume_sent hst htstate
  exact ⟨hstate.trans htstate, more ++ rest, by simp [hrest, hmore], by simp [hrest', hmore']⟩

/-- **A graceful end.**  When `quit` is called and no `addPayload` is in progress, and only
    `Consume` takes steps after that, then `Consume` leaves its loop, and has iterated over all
    the payloads that were added before.  With a connection to the server at `quit` it has sent
    those that it had not iterated over by then; what became of the ones before depends on the
    connection that there was at their time. -/
theorem graceful_quit [DecidableEq τ] (acts : List (Act τ α)) (s : HandOver τ α)
    (hrun : exec step {} acts = some s) (hbefore : ∀ a ∈ acts, BeforeQuit a)
    (hwaking : s.waking = []) :
    ∃ n s', exec step s (.quit :: List.replicate n .consume) = some s' ∧ s'.pc = .exited ∧
      s'.iterated = s.appended ∧
      (s.state = .READY → s'.sent = s.sent ++ s.appended.drop s.iterated.length) := by
  -- the invariants up to the call of `quit`, and the state right behind it
  have hsound : Sound s := exec_invariant (fun _ _ _ => sound_step) sound_init hrun
  have hrunning : Running s :=
    exec_invariant_along (fun _ _ _ h ha hst => running_step h ha hst) running_init
      (along_of_forall hbefore _) hrun
  have hquit : step s .quit = some { s with chars := s.chars ++ QUIT } := rfl
  have hstart : Quitting { s with chars := s.chars ++ QUIT } :=
    ⟨sound_step hsound hquit, hrunning.state, hwaking,
      fun _ => ⟨s.chars.length, by
        rw [List.eq_replicate_of_mem hrunning.chars, List.length_replicate]⟩,
      fun hexited => absurd hexited hrunning.pc⟩
  -- `Consume` comes nearer to its end with every step
  obtain ⟨n, s', hconsume, hdrained, hexited⟩ :=
    exec_until (fun _ => draining_consume)
      (⟨hstart, rfl, fun hready => ⟨hready, [], by simp, by simp⟩⟩ : Draining s _)
  have hiterated : s'.iterated = s.appended := by
    obtain ⟨hpending, hpv⟩ := hdrained.quitting.exited hexited
    have horder := hdrained.quitting.sound.order
    rw [hpending, hpv, List.append_nil, List.append_nil] at horder
    exact horder.trans hdrained.appended
  refine ⟨n, s', exec_cons_eq_some.mpr ⟨_, hquit, hconsume⟩, hexited, hiterated, fun hready => ?_⟩
  obtain ⟨-, more, hmore, hmore'⟩ := hdrained.sent hready
  rw [hmore', ← hiterated, hmore, List.drop_left]

/-- Two payloads are added and one of them is announced twice over before `quit`. -/
theorem graceful_quit_two : ∃ (s s' : HandOver Nat Nat) (n : Nat),
    exec step {} [.append 1 10, .wake 1, .consume, .append 1 20, .wake 1] = some s ∧
    exec step s (.quit :: List.replicate n .consume) = some s' ∧ s'.iterated = [10, 20] ∧
    s'.sent = [10, 20] := by
  obtain ⟨s, hrun, htest⟩ := exists_of_exec_any
    (show (exec step ({} : HandOver Nat Nat)
      [.append 1 10, .wake 1, .consume, .append 1 20, .wake 1]).any (fun s => s.waking = [] ∧
        s.appended = [10, 20] ∧ s.iterated = [] ∧ s.sent = [] ∧ s.state = .READY) = true by decide)
  obtain ⟨hwaking, happended, hiterated, hsent, hstate⟩ := of_decide_eq_true htest
  obtain ⟨n, s', hquit, -, hall, hready⟩ := graceful_quit _ s hrun
    (by simp [BeforeQuit]) hwaking
  refine ⟨s, s', n, hrun, hquit, hall.trans happended, ?_⟩
  rw [hready hstate, hsent, happended, hiterated]
  rfl

/-- `Produce` has seen the terminator before `Consume` has looked at the payload: `Consume` ends
    with the payload left. -/
example : (exec step ({} : HandOver Nat Nat)
    [.append 1 10, .wake 1, .setState .DONE, .quit, .consume]).any
      (fun s => s.pc = .exited ∧ s.iterated = [] ∧ s.pv = [10]) = true := by
  decide

end HandOver

end CPlayground.Relay.Collector
