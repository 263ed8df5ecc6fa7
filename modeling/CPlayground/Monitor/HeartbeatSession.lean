import CPlayground.Lib.Trace
import CPlayground.Monitor.Heartbeat
import Mathlib.Data.List.Chain
import Mathlib.Tactic.Linarith

namespace CPlayground.Monitor

open CPlayground.Trace

/-!
# A session and its heartbeat

Between two calls of `Listener::onDisconnect` the heartbeat sees three kinds of events: a tick of
`Listener::Ping`, a request that was read, a pong that was read.  Each comes with a reading of the
clock, in milliseconds since the epoch; the timestamp of a pong is whatever the peer sent.

* `heartbeat_verdict` — `retry` stays between 0 and 5; a session is given up only after five pings
  without a pong, and is given up by the eighth tick of a silent peer.
-/

/-- A session, with the number of pings queued since the last pong or the beginning. -/
structure Session where
  heartbeat : Heartbeat
  lastest_readts : ℚ
  /-- The latest clock reading. -/
  clock : ℚ
  queued : Nat
  /-- `Heartbeat::ping` has returned `false`. -/
  ended : Bool

namespace Session

/-- The events of a session, each with a reading of the clock; the timestamp of a pong is what the
    peer sent, as a `double`. -/
inductive Act where
  | ping (now : ℚ)
  | request (now : ℚ)
  | pong (timestamp : UInt64) (now : ℚ)

/-- The clock reading of an event. -/
def Act.now : Act → ℚ
  | .ping now | .request now | .pong _ now => now

/-- A session begins with `Reader::reset` and `Heartbeat::reset`. -/
def start (h : Heartbeat) (clock : ℚ) : Session := ⟨h.reset, -1, clock, 0, false⟩

/-- The effect of an event. -/
def event (s : Session) : Act → Session
  | .ping now =>
    match s.heartbeat.ping now s.lastest_readts with
    | (.recent, h) => { s with heartbeat := h, clock := now }
    | (.dead, h)   => { s with heartbeat := h, clock := now, ended := true }
    | (.send, h)   => { s with heartbeat := h, clock := now, queued := s.queued + 1 }
  | .request now => { s with lastest_readts := now, clock := now }
  | .pong timestamp now =>
    { s with heartbeat := { s.heartbeat with lastest_pongts := now }.updateRTT
               (now - doubleValue timestamp),
             clock := now, queued := 0 }

/-- One event; the clock does not go back, and a session that has ended has no more events. -/
def step (s : Session) (a : Act) : Option Session :=
  if s.ended = false ∧ s.clock ≤ a.now then some (s.event a) else none

/-! ### The invariant -/

/-- What holds all through a session: `retry` is between 0 and 5, each retry that is used up has
    queued a ping, and nothing was read in the future. -/
structure Sane (s : Session) : Prop where
  retry_nonneg : 0 ≤ s.heartbeat.retry
  retry_le : s.heartbeat.retry ≤ 5
  -- each retry that is used up has queued a ping
  counted : 5 ≤ s.heartbeat.retry + s.queued
  verdict : s.ended = true → s.heartbeat.retry = 0
  clock_nonneg : 0 ≤ s.clock
  readts_le : s.lastest_readts ≤ s.clock
  pongts_le : s.heartbeat.lastest_pongts ≤ s.clock
  maxrtt_lt : s.heartbeat.maxrtt < 250

variable {s s' : Session}

/-- An event comes when the session has not ended, and not before the last one. -/
theorem step_eq_some {a : Act} :
    s.step a = some s' ↔ s.ended = false ∧ s.clock ≤ a.now ∧ s.event a = s' := by
  rw [step, Option.ite_none_right_eq_some, Option.some.injEq, and_assoc]

/-- The clock of a session is that of its last event. -/
theorem clock_event (s : Session) (a : Act) : (s.event a).clock = a.now := by
  cases a with
  | ping now =>
    rw [event]
    split <;> rfl
  | request now => rfl
  | pong timestamp now => rfl

/-- A tick soon after a request. -/
theorem event_ping_recent {now : ℚ} (h : now - s.lastest_readts < 5000) :
    s.event (.ping now) = { s with clock := now } := by
  have hping : s.heartbeat.ping now s.lastest_readts = (.recent, s.heartbeat) := if_pos h
  rw [event, hping]

/-- A tick with no retry left. -/
theorem event_ping_dead {now : ℚ} (h : ¬ now - s.lastest_readts < 5000)
    (hretry : s.heartbeat.retry = 0) :
    s.event (.ping now) = { s with clock := now, ended := true } := by
  have hping : s.heartbeat.ping now s.lastest_readts = (.dead, s.heartbeat) :=
    (if_neg h).trans (if_pos hretry)
  rw [event, hping]

/-- A tick that queues a ping. -/
theorem event_ping_send {now : ℚ} (h : ¬ now - s.lastest_readts < 5000)
    (hretry : s.heartbeat.retry ≠ 0) :
    s.event (.ping now) =
      { s with heartbeat := { s.heartbeat with
                 retry := if s.heartbeat.unanswered now then s.heartbeat.retry - 1
                          else s.heartbeat.retry
                 lastest_pingts := now },
               clock := now, queued := s.queued + 1 } := by
  have hping : s.heartbeat.ping now s.lastest_readts = (.send, _) :=
    (if_neg h).trans (if_neg hretry)
  rw [event, hping]

/-- A session begins with the state that `reset` leaves. -/
theorem sane_start (h : Heartbeat) {clock : ℚ} (hclock : 0 ≤ clock) : Sane (start h clock) where
  retry_nonneg := by show (0 : Int) ≤ 5; decide
  retry_le := le_refl _
  counted := le_refl _
  verdict := nofun
  clock_nonneg := hclock
  readts_le := by show (-1 : ℚ) ≤ clock; linarith
  pongts_le := by show (-1 : ℚ) ≤ clock; linarith
  maxrtt_lt := by
    show -((5000 : Nat) : ℚ) < 250
    norm_num

/-- `maxrtt` only takes round trips below `HEARTBEAT_DURATION / 20`, whatever the peer sends. -/
theorem maxrtt_updateRTT {h : Heartbeat} (hmax : h.maxrtt < 250) (d : ℚ) :
    (h.updateRTT d).maxrtt < 250 := by
  show (if h.maxrtt < d ∧ d < ((5000 : Nat) : ℚ) / 20 then d else h.maxrtt) < 250
  split
  · rename_i hd
    have hlt := hd.2
    norm_num at hlt
    exact hlt
  · exact hmax

/-- A tick takes one away from `retry` if the last ping was not answered, or ends the session at
    zero. -/
theorem sane_ping {now : ℚ} (h : Sane s) (hnow : s.clock ≤ now) : Sane (s.event (.ping now)) := by
  have h0 : 0 ≤ now := h.clock_nonneg.trans hnow
  by_cases hrecent : now - s.lastest_readts < 5000
  · rw [event_ping_recent hrecent]
    exact ⟨h.retry_nonneg, h.retry_le, h.counted, h.verdict, h0, h.readts_le.trans hnow,
      h.pongts_le.trans hnow, h.maxrtt_lt⟩
  by_cases hretry : s.heartbeat.retry = 0
  · rw [event_ping_dead hrecent hretry]
    exact ⟨h.retry_nonneg, h.retry_le, h.counted, fun _ => hretry, h0, h.readts_le.trans hnow,
      h.pongts_le.trans hnow, h.maxrtt_lt⟩
  · rw [event_ping_send hrecent hretry]
    have hnonneg := h.retry_nonneg
    have hle := h.retry_le
    have hcounted := h.counted
    have hended : s.ended ≠ true := fun ho => hretry (h.verdict ho)
    refine ⟨?_, ?_, ?_, fun ho => absurd ho hended, h0, h.readts_le.trans hnow,
      h.pongts_le.trans hnow, h.maxrtt_lt⟩
    · dsimp only
      split <;> omega
    · dsimp only
      split <;> omega
    · dsimp only
      split <;> omega

/-- **One event keeps the session sane**: the times are not later than the clock, and the retries
    are between zero and their maximum. -/
theorem sane_step {a : Act} (h : Sane s) (hst : s.step a = some s') : Sane s' := by
  obtain ⟨hended, hnow, rfl⟩ := step_eq_some.mp hst
  have h0 : 0 ≤ a.now := h.clock_nonneg.trans hnow
  cases a with
  | ping now => exact sane_ping h hnow
  | request now =>
    exact ⟨h.retry_nonneg, h.retry_le, h.counted, h.verdict, h0, le_refl _, h.pongts_le.trans hnow,
      h.maxrtt_lt⟩
  | pong timestamp now =>
    refine ⟨?_, le_refl _, le_refl _, fun ho => ?_, h0, h.readts_le.trans hnow, le_refl _,
      maxrtt_updateRTT h.maxrtt_lt _⟩
    · show (0 : Int) ≤ 5
      decide
    · rw [show s.ended = true from ho] at hended
      cases hended

/-! ### A silent peer -/

/-- No pong and no request since `since`, so that every tick from then on finds a late peer. -/
structure Silent (since : ℚ) (s : Session) : Prop where
  readts_le : s.lastest_readts ≤ since
  pongts_le : s.heartbeat.lastest_pongts ≤ since
  maxrtt_lt : s.heartbeat.maxrtt < 250

/-- Ticks do not break the silence. -/
theorem silent_ping {since now : ℚ} (h : Silent since s) : Silent since (s.event (.ping now)) := by
  by_cases hrecent : now - s.lastest_readts < 5000
  · rw [event_ping_recent hrecent]
    exact ⟨h.readts_le, h.pongts_le, h.maxrtt_lt⟩
  by_cases hretry : s.heartbeat.retry = 0
  · rw [event_ping_dead hrecent hretry]
    exact ⟨h.readts_le, h.pongts_le, h.maxrtt_lt⟩
  · rw [event_ping_send hrecent hretry]
    exact ⟨h.readts_le, h.pongts_le, h.maxrtt_lt⟩

/-- Ten seconds into the silence, every ping before this tick counts as unanswered. -/
theorem unanswered_of_silent {since now : ℚ} (h : Silent since s) (hlate : since + 10000 ≤ now)
    (hping : 0 < s.heartbeat.lastest_pingts) : s.heartbeat.unanswered now = true := by
  have hpong := h.pongts_le
  have hmax := h.maxrtt_lt
  have htimeout : now - s.heartbeat.lastest_pongts
      > ((5000 : Nat) : ℚ) + 10 * s.heartbeat.maxrtt := by
    norm_num
    linarith
  rw [Heartbeat.unanswered, Bool.and_eq_true, Bool.or_eq_true]
  exact ⟨decide_eq_true hping, .inr (decide_eq_true htimeout)⟩

/-- `Heartbeat::ping` returns `false` no later than at the `n`-th of the ticks `ts`. -/
def GivenUp (n : Nat) (s : Session) (ts : List ℚ) : Prop :=
  ∃ k ≤ n, ∃ s', exec step s ((ts.take k).map .ping) = some s' ∧ s'.ended = true

/-- A session that has ended is given up. -/
theorem givenUp_of_ended {n : Nat} {ts : List ℚ} (h : s.ended = true) : GivenUp n s ts :=
  ⟨0, Nat.zero_le _, s, rfl, h⟩

/-- One tick less. -/
theorem givenUp_cons {n : Nat} {t : ℚ} {ts : List ℚ} (hended : s.ended = false)
    (hclock : s.clock ≤ t) (h : GivenUp n (s.event (.ping t)) ts) :
    GivenUp (n + 1) s (t :: ts) := by
  obtain ⟨k, hk, s', hrun, hs'⟩ := h
  have hst : s.step (.ping t) = some (s.event (.ping t)) := step_eq_some.mpr ⟨hended, hclock, rfl⟩
  exact ⟨k + 1, Nat.succ_le_succ hk, s', exec_cons_eq_some.mpr ⟨_, hst, hrun⟩, hs'⟩

/-- Once a silence has lasted ten seconds, `n` retries are used up by `n` ticks. -/
theorem givenUp_of_late {since : ℚ} {ts : List ℚ} (n : Nat) (hended : s.ended = false)
    (h0 : 0 ≤ s.heartbeat.retry) (hretry : s.heartbeat.retry ≤ n) (h : Silent since s)
    (hping : 0 < s.heartbeat.lastest_pingts) (hsince : 0 ≤ since) (hlen : n < ts.length)
    (hclock : ∀ t ∈ ts, s.clock ≤ t) (hlate : ∀ t ∈ ts, since + 10000 ≤ t)
    (hsorted : ts.Pairwise (· ≤ ·)) : GivenUp (n + 1) s ts := by
  -- by induction on the retries that are left
  induction n generalizing s ts with
  | zero =>
    obtain ⟨t, ts, rfl⟩ := List.exists_cons_of_length_pos hlen
    have hold : ¬ t - s.lastest_readts < 5000 := by
      linarith [h.readts_le, hlate t List.mem_cons_self]
    refine givenUp_cons hended (hclock t List.mem_cons_self) (givenUp_of_ended ?_)
    rw [event_ping_dead hold (by omega)]
  | succ n ih =>
    obtain ⟨t, ts, rfl⟩ := List.exists_cons_of_length_pos (Nat.zero_lt_of_lt hlen)
    have ht := hlate t List.mem_cons_self
    have hold : ¬ t - s.lastest_readts < 5000 := by linarith [h.readts_le]
    refine givenUp_cons hended (hclock t List.mem_cons_self) ?_
    -- without retries the session ends, and else the ping is sent with one less
    by_cases hzero : s.heartbeat.retry = 0
    · refine givenUp_of_ended ?_
      rw [event_ping_dead hold hzero]
    · have hsilent : Silent since (s.event (.ping t)) := silent_ping h
      rw [event_ping_send hold hzero, unanswered_of_silent h ht hping, if_pos rfl] at hsilent ⊢
      rw [List.pairwise_cons] at hsorted
      refine ih hended ?_ ?_ hsilent ?_ (by simpa using hlen) hsorted.1
        (fun u hu => hlate u (List.mem_cons_of_mem _ hu)) hsorted.2
      · show 0 ≤ s.heartbeat.retry - 1
        omega
      · show s.heartbeat.retry - 1 ≤ n
        push_cast at hretry
        omega
      · show 0 < t
        linarith

/-- Eight ticks, five seconds apart, end the session of a silent peer: two of them until the silence
    is noticed, five for the retries, and one for the end. -/
theorem givenUp_of_silence {ts : List ℚ} (h : Sane s) (hended : s.ended = false)
    (hlen : ts.length = 8) (hclock : ∀ t ∈ ts.head?, s.clock ≤ t)
    (hapart : ts.IsChain fun t u => t + 5000 ≤ u) : GivenUp 8 s ts := by
  obtain ⟨t₁, ts, rfl⟩ := List.exists_cons_of_length_eq_add_one hlen
  obtain ⟨t₂, ts, rfl⟩ := List.exists_cons_of_length_eq_add_one (Nat.succ.inj hlen)
  have hlen : ts.length = 6 := Nat.succ.inj (Nat.succ.inj hlen)
  have h₁ : s.clock ≤ t₁ := hclock t₁ rfl
  obtain ⟨h₁₂, hapart⟩ := List.isChain_cons_cons.mp hapart
  -- the relation is transitive, so each tick is late for all the ticks before it
  have hpair : (t₂ :: ts).Pairwise fun t u => t + 5000 ≤ u :=
    haveI : IsTrans ℚ fun t u => t + 5000 ≤ u := ⟨fun a b c _ _ => by linarith⟩
    hapart.pairwise
  rw [List.pairwise_cons] at hpair
  -- the first tick may still come soon after a request
  refine givenUp_cons hended h₁ ?_
  have hsane₁ : Sane (s.event (.ping t₁)) := sane_ping h h₁
  have hclock₁ : (s.event (.ping t₁)).clock = t₁ := clock_event s (.ping t₁)
  have hsilent₁ : Silent t₁ (s.event (.ping t₁)) :=
    silent_ping ⟨h.readts_le.trans h₁, h.pongts_le.trans h₁, h.maxrtt_lt⟩
  generalize s.event (.ping t₁) = s₁ at *
  cases hended₁ : s₁.ended with
  | true => exact givenUp_of_ended hended₁
  | false =>
    -- the second tick leaves a ping behind that nobody answers
    refine givenUp_cons hended₁ (by linarith) ?_
    have hold : ¬ t₂ - s₁.lastest_readts < 5000 := by linarith [hsilent₁.readts_le]
    by_cases hzero : s₁.heartbeat.retry = 0
    · refine givenUp_of_ended ?_
      rw [event_ping_dead hold hzero]
    have hsane₂ : Sane (s₁.event (.ping t₂)) := sane_ping hsane₁ (by linarith)
    have hsilent₂ : Silent t₁ (s₁.event (.ping t₂)) := silent_ping hsilent₁
    rw [event_ping_send hold hzero] at hsane₂ hsilent₂ ⊢
    have h0 : 0 ≤ t₁ := hclock₁ ▸ hsane₁.clock_nonneg
    refine givenUp_of_late 5 hended₁ hsane₂.retry_nonneg hsane₂.retry_le hsilent₂ ?_ h0
      (by omega) (fun u hu => ?_) (fun u hu => ?_) (hpair.2.imp fun hab => by linarith)
    · show 0 < t₂
      linarith
    · show t₂ ≤ u
      linarith [hpair.1 u hu]
    · linarith [hpair.1 u hu]

/-- **Heartbeat verdict.**  In every session, `retry` stays between 0 and 5; `Heartbeat::ping` has
    returned `false` only if at least five pings have been queued since the last pong, or since the
    session began; and from any moment on, if only ticks at least five seconds apart follow, it
    returns `false` no later than at the eighth. -/
theorem heartbeat_verdict (h : Heartbeat) (clock : ℚ) (hclock : 0 ≤ clock) (acts : List Act)
    (s : Session) (hrun : exec step (start h clock) acts = some s) :
    (0 ≤ s.heartbeat.retry ∧ s.heartbeat.retry ≤ 5) ∧
      (s.ended = true → 5 ≤ s.queued) ∧
      (s.ended = false → ∀ ts : List ℚ, ts.length = 8 → (∀ t ∈ ts.head?, s.clock ≤ t) →
        (ts.IsChain fun t u => t + 5000 ≤ u) → GivenUp 8 s ts) := by
  have hsane : Sane s := exec_invariant (fun _ _ _ => sane_step) (sane_start h hclock) hrun
  refine ⟨⟨hsane.retry_nonneg, hsane.retry_le⟩, fun hended => ?_, fun hended ts => ?_⟩
  · have hcounted := hsane.counted
    rw [hsane.verdict hended] at hcounted
    omega
  · exact givenUp_of_silence hsane hended

/-- A peer that answers the ping of second ten, ten milliseconds late, and then nothing. -/
def dying : List Act := [.ping 5000, .ping 10000, .pong 0x40c3880000000000 10010]

/-- The peer falls silent after its answer, and the session is given up by the eighth tick. -/
theorem heartbeat_verdict_dying : ∃ s, exec step (start .new 0) dying = some s ∧
    s.ended = false ∧ s.heartbeat.retry ≤ 5 ∧
      GivenUp 8 s [15000, 20000, 25000, 30000, 35000, 40000, 45000, 50000] := by
  obtain ⟨s, hrun, htest⟩ := exists_of_exec_any
    (show (exec step (start .new 0) dying).any (fun s => !s.ended && s.clock ≤ 15000) = true by
      decide +kernel)
  obtain ⟨hended, hclock⟩ := Bool.and_eq_true_iff.mp htest
  have hended : s.ended = false := (Bool.not_eq_true' _).mp hended
  obtain ⟨⟨-, hretry⟩, -, hsilence⟩ := heartbeat_verdict .new 0 (le_refl _) dying s hrun
  refine ⟨s, hrun, hended, hretry, hsilence hended _ rfl ?_ ?_⟩
  · rintro t ⟨⟩
    exact of_decide_eq_true hclock
  · norm_num

end Session

end CPlayground.Monitor
