import Mathlib.Data.Rat.Defs
import Mathlib.Algebra.Order.Field.Rat

namespace CPlayground.Monitor

/-!
# `Heartbeat`: when is a peer given up?

The timer thread calls `Heartbeat::ping` every `HEARTBEAT_DURATION` milliseconds; the loop calls
`updateRTT` for every pong.  Times are exact numbers of milliseconds; a time that travels in a
message is a double and is kept as its bit pattern, see `doubleValue`.
-/

/-- The number a binary64 bit pattern stands for.  Infinities become `±2 ^ 1024` and a NaN becomes
    `-2 ^ 1024`: subtracted from a clock reading it is then past every bound the code compares
    with, as the comparisons with NaN all fail. -/
def doubleValue (bits : UInt64) : ℚ :=
  let e : Nat := bits.toNat / 2 ^ 52 % 2 ^ 11
  let m : Nat := bits.toNat % 2 ^ 52
  let sign : ℚ := if bits.toNat / 2 ^ 63 = 1 then -1 else 1
  if e = 2047 then if m = 0 then sign * 2 ^ 1024 else -2 ^ 1024
  else if e = 0 then sign * m / 2 ^ 1074
  else sign * (2 ^ 52 + m) * 2 ^ e / 2 ^ 1075

/-- How often a beat is tried in a row. -/
def HEARTBEAT_MAXRETRY : Int := 5

/-- In milliseconds. -/
def HEARTBEAT_DURATION : Nat := 5000

/-- `Heartbeat`. -/
structure Heartbeat where
  lastest_pingts : ℚ
  lastest_pongts : ℚ
  rtt : ℚ
  minrtt : ℚ
  maxrtt : ℚ
  retry : Int

namespace Heartbeat

/-- The constructor. -/
def new : Heartbeat :=
  ⟨-1, -1, -1, HEARTBEAT_DURATION, -HEARTBEAT_DURATION, HEARTBEAT_MAXRETRY⟩

/-- `Heartbeat::reset`. -/
def reset (_ : Heartbeat) : Heartbeat where
  lastest_pingts := -1
  lastest_pongts := -1
  rtt := -1
  minrtt := HEARTBEAT_DURATION
  maxrtt := -HEARTBEAT_DURATION
  retry := HEARTBEAT_MAXRETRY

/-- `Heartbeat::updateRTT`. -/
def updateRTT (h : Heartbeat) (d : ℚ) : Heartbeat :=
  { h with
    rtt := d
    minrtt := if h.minrtt > d then d else h.minrtt
    maxrtt := if h.maxrtt < d ∧ d < HEARTBEAT_DURATION / 20 then d else h.maxrtt
    retry := HEARTBEAT_MAXRETRY }

/-- What `Heartbeat::ping` decides. -/
inductive Verdict where
  /-- A request was read lately: no need to ping. -/
  | recent
  /-- No retry is left: `ping` returns `false`. -/
  | dead
  /-- A ping is to be published. -/
  | send
  deriving DecidableEq

/-- The ping before this one was not answered in time. -/
def unanswered (h : Heartbeat) (now : ℚ) : Bool :=
  h.lastest_pingts > 0 &&
    (h.rtt < 0 || now - h.lastest_pongts > HEARTBEAT_DURATION + 10 * h.maxrtt)

/-- `Heartbeat::ping` up to the publication of the ping message. -/
def ping (h : Heartbeat) (now lastest_readts : ℚ) : Verdict × Heartbeat :=
  if now - lastest_readts < HEARTBEAT_DURATION then (.recent, h)
  else if h.retry = 0 then (.dead, h)
  else (.send, { h with retry := if h.unanswered now then h.retry - 1 else h.retry,
                        lastest_pingts := now })

end Heartbeat

end CPlayground.Monitor
