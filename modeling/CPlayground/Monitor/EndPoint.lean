import CPlayground.Lib.Trace
import Mathlib.Data.List.Nodup

namespace CPlayground.Monitor

open CPlayground.Trace

/-!
# `EndPoint`: who closes a descriptor

A server, a client, a timer and a `SignalFd` have a descriptor, and a `Defer` that closes it.  A
constructor gives up at the first system call that fails, and `TcpipServer::initialize` may be
called again then.  A caller takes the descriptor with `transferOwnership`, which cancels the
`Defer`, or with `transfer`, which leaves -1 behind.

A descriptor has a name that is not used twice; -1 is `none`.

* `EndPoint.Accounts` — a descriptor that was opened is with the object, closed or handed out.
* `closed_or_handed` — so when the object is destroyed, each was either closed, once, or handed out.
-/

/-- `EndPoint::State`. -/
inductive EndPoint.State where
  | NOTHINGNESS
  | INITIALIZED
  | TRANSFERRED
  deriving DecidableEq

/-- `fd_`, `state_`, and whether `cleanup_` has the closure that closes `fd_`.  The last three
    fields record what was opened, closed and given to callers. -/
structure EndPoint (κ : Type*) where
  fd : Option κ := none
  state : EndPoint.State := .NOTHINGNESS
  cleanup : Bool := false
  opened : List κ := []
  closed : List κ := []
  handed : List κ := []
  deriving DecidableEq

/-- The outcomes of the system calls of a constructor or of `TcpipServer::initialize`.  That
    `remove` fails because there is no such file counts as a success. -/
structure Calls (κ : Type*) where
  remove : Bool := true
  /-- `socket`, `signalfd` or `timerfd_create`. -/
  fd : Option κ
  inet_aton : Bool := true
  /-- `SO_REUSEADDR` or `SO_SNDTIMEO`. -/
  setsockopt : Bool := true
  /-- `SO_REUSEPORT`. -/
  setReuseport : Bool := true
  bind : Bool := true
  listen : Bool := true
  connect : Bool := true
  deriving DecidableEq

namespace EndPoint

variable {κ : Type*}

/-- `util::Close(fd_)`. -/
def Close (e : EndPoint κ) : EndPoint κ :=
  { e with fd := none, closed := e.closed ++ e.fd.toList }

/-- `cleanup_.trigger()`, and the destructor. -/
def trigger (e : EndPoint κ) : EndPoint κ :=
  if e.cleanup then { e.Close with cleanup := false } else e

/-- `cleanup_ = Defer([this] { util::Close(fd_); })`.  The closure that was there before moves to
    the temporary object, and runs. -/
def setCleanup (e : EndPoint κ) : EndPoint κ := { e.trigger with cleanup := true }

/-- `fd_ = socket(...)`. -/
def setFd (e : EndPoint κ) (fd : Option κ) : EndPoint κ :=
  { e with fd := fd, opened := e.opened ++ fd.toList }

/-- A system call on `fd_`, which fails on -1. -/
def call (e : EndPoint κ) (ok : Bool) : Bool := e.fd.isSome && ok

/-- `EndPoint::initialize`. -/
def setInitialized (e : EndPoint κ) : EndPoint κ := { e with state := .INITIALIZED }

/-- `valid()`. -/
def valid (e : EndPoint κ) : Bool := e.state = .INITIALIZED

/-- `transferOwnership`; the descriptor is still in `fd_`. -/
def transferOwnership (e : EndPoint κ) : EndPoint κ :=
  { e with state := .TRANSFERRED, cleanup := false, handed := e.handed ++ e.fd.toList }

/-- `transfer`: the caller gets the descriptor, and -1 is left behind. -/
def transfer (e : EndPoint κ) : EndPoint κ :=
  { e with fd := none, handed := e.handed ++ e.fd.toList }

/-! ### The constructors -/

/-- `UnixServer`. -/
def unixServer (c : Calls κ) : EndPoint κ :=
  let e := setCleanup {}
  if !c.remove then e
  else
    let e := e.setFd c.fd
    if !e.call c.bind then e.trigger
    else if !e.call c.listen then e.trigger
    else e.setInitialized

/-- `TcpipServer::initialize`. -/
def tcpipInitialize (reuseport : Bool) (c : Calls κ) (e : EndPoint κ) : EndPoint κ :=
  if e.state = .NOTHINGNESS then
    let e := e.setCleanup.setFd c.fd
    if !e.call c.setsockopt then e
    else if reuseport && !e.call c.setReuseport then e
    else if !e.call c.bind then e
    else if !e.call c.listen then e
    else e.setInitialized
  else e

/-- `TcpipServer`. -/
def tcpipServer (lazy : Bool) (c : Calls κ) : EndPoint κ :=
  if lazy then {} else tcpipInitialize false c {}

/-- `UnixClient`. -/
def unixClient (c : Calls κ) : EndPoint κ :=
  let e := (setCleanup {}).setFd c.fd
  if !e.call c.setsockopt then e
  else if !e.call c.connect then e
  else e.setInitialized

/-- `TcpipClient`. -/
def tcpipClient (c : Calls κ) : EndPoint κ :=
  let e := (setCleanup {}).setFd c.fd
  if !c.inet_aton then e
  else if !e.call c.setsockopt then e
  else if !e.call c.connect then e
  else e.setInitialized

/-- `SignalFd`.  It is initialized also when it has no descriptor. -/
def signalFd (c : Calls κ) : EndPoint κ :=
  let e := setFd {} c.fd
  let e := if e.fd.isSome then e.setCleanup else e
  e.setInitialized

/-- `Timer`. -/
def timer (c : Calls κ) : EndPoint κ :=
  let e := setFd {} c.fd
  if e.fd.isNone then e
  else e.setCleanup.setInitialized

/-! ### The accounts -/

/-- A descriptor that was opened is closed, handed out, or in `fd_` with the closure that closes it.
    What is in `fd_` without the closure was handed out. -/
structure Accounts (e : EndPoint κ) : Prop where
  opened : e.opened.Nodup
  closed : e.closed.Nodup
  apart : ∀ k ∈ e.closed, k ∉ e.handed
  mem : ∀ k, k ∈ e.opened ↔ k ∈ e.closed ∨ k ∈ e.handed ∨ e.cleanup = true ∧ e.fd = some k
  own : e.cleanup = true → ∀ k, e.fd = some k → k ∉ e.closed ∧ k ∉ e.handed
  left : e.cleanup = false → ∀ k, e.fd = some k → k ∈ e.handed ∧ e.state ≠ .NOTHINGNESS

variable {e : EndPoint κ} {fd : Option κ} {c : Calls κ}

/-- No descriptor was opened. -/
theorem accounts_empty : Accounts ({} : EndPoint κ) := by
  constructor <;> simp

/-- The `Defer` closes the descriptor that the object has, if it has not been cancelled. -/
theorem Accounts.trigger (h : Accounts e) : Accounts e.trigger := by
  rw [EndPoint.trigger]
  split
  case isFalse => exact h
  case isTrue hclean =>
    have hmem : ∀ k, k ∈ e.fd.toList ↔ e.fd = some k := fun k => Option.mem_toList
    have hown := h.own hclean
    constructor
    case opened => exact h.opened
    case closed =>
      refine h.closed.append e.fd.toList_nodup fun k hk hfd => (hown k ((hmem k).mp hfd)).1 hk
    case apart =>
      intro k hk
      rcases List.mem_append.mp hk with hk | hk
      · exact h.apart k hk
      · exact (hown k ((hmem k).mp hk)).2
    case mem =>
      intro k
      simp only [Close, List.mem_append, hmem, h.mem k, hclean]
      grind
    case own => simp
    case left => simp [Close]

/-- Behind a `Defer` that was armed there is no descriptor. -/
theorem trigger_fd (h : e.cleanup = true) : e.trigger.fd = none := by
  rw [trigger, if_pos h]
  rfl

/-- A `Defer` runs once. -/
theorem trigger_cleanup (e : EndPoint κ) : e.trigger.cleanup = false := by
  rw [trigger]
  split
  · rfl
  · exact Bool.eq_false_iff.mpr ‹_›

/-- The `Defer` opens nothing. -/
theorem trigger_opened (e : EndPoint κ) : e.trigger.opened = e.opened := by
  rw [trigger]
  split <;> rfl

/-- The `Defer` hands nothing out. -/
theorem trigger_handed (e : EndPoint κ) : e.trigger.handed = e.handed := by
  rw [trigger]
  split <;> rfl

/-- An object that does not have a socket yet, or whose `initialize` has failed. -/
theorem Accounts.trigger_none (h : Accounts e) (hstate : e.state = .NOTHINGNESS) :
    e.trigger.fd = none := by
  cases hclean : e.cleanup with
  | true => exact trigger_fd hclean
  | false =>
    rw [EndPoint.trigger, if_neg (by simp [hclean])]
    by_contra hfd
    obtain ⟨k, hk⟩ := Option.ne_none_iff_exists'.mp hfd
    exact (h.left hclean k hk).2 hstate

/-- A new `Defer` takes the place of the old one, which runs; the object has no descriptor at this
    time, or one that is closed then. -/
theorem Accounts.setCleanup (h : Accounts e) (hstate : e.state = .NOTHINGNESS) :
    Accounts e.setCleanup := by
  have hfd := h.trigger_none hstate
  have htrigger := h.trigger
  exact ⟨htrigger.opened, htrigger.closed, htrigger.apart, by
    simpa [EndPoint.setCleanup, hfd] using htrigger.mem, by simp [EndPoint.setCleanup, hfd], by
    simp [EndPoint.setCleanup]⟩

/-- A descriptor more: it was opened by this object, which is to close it. -/
theorem Accounts.setFd (h : Accounts e) (hclean : e.cleanup = true) (hnone : e.fd = none)
    (hfresh : ∀ k ∈ fd, k ∉ e.opened) : Accounts (e.setFd fd) := by
  have hmem : ∀ k, k ∈ fd.toList ↔ fd = some k := fun k => Option.mem_toList
  constructor
  case opened =>
    exact h.opened.append fd.toList_nodup fun k hk hfd => hfresh k (Option.mem_toList.mp hfd) hk
  case closed => exact h.closed
  case apart => exact h.apart
  case mem =>
    intro k
    simp only [EndPoint.setFd, List.mem_append, hmem, h.mem k, hclean, hnone]
    grind
  case own =>
    intro _ k hk
    have hnew := hfresh k hk
    rw [h.mem k] at hnew
    exact ⟨fun hc => hnew (.inl hc), fun hh => hnew (.inr (.inl hh))⟩
  case left => simp [EndPoint.setFd, hclean]

/-- The socket of a constructor, or of a call of `initialize` after others have failed. -/
theorem Accounts.acquire (h : Accounts e) (hstate : e.state = .NOTHINGNESS)
    (hfresh : ∀ k ∈ fd, k ∉ e.opened) : Accounts (e.setCleanup.setFd fd) :=
  (h.setCleanup hstate).setFd rfl (h.trigger_none hstate) (by
    rw [EndPoint.setCleanup, trigger_opened]
    exact hfresh)

/-- The state is set at the end of a constructor. -/
theorem Accounts.setInitialized (h : Accounts e) : Accounts e.setInitialized :=
  { h with left := fun hclean k hk => ⟨(h.left hclean k hk).1, nofun⟩ }

/-- The descriptor is given to the caller.  It is forgotten, or the closure is. -/
theorem Accounts.hand (h : Accounts e) {state : State} {cleanup : Bool}
    (hown : cleanup = true → fd = none)
    (hleft : cleanup = false → fd.isSome → fd = e.fd ∧ state ≠ .NOTHINGNESS) :
    Accounts { e with fd, state, cleanup, handed := e.handed ++ e.fd.toList } := by
  have hmem : ∀ k, k ∈ e.fd.toList ↔ e.fd = some k := fun k => Option.mem_toList
  constructor
  case opened => exact h.opened
  case closed => exact h.closed
  case apart =>
    intro k hk hmem'
    rcases List.mem_append.mp hmem' with hh | hfd
    · exact h.apart k hk hh
    -- the descriptor is handed out for the first time, or is one that was handed out before
    · rw [hmem] at hfd
      cases hclean : e.cleanup with
      | true => exact (h.own hclean k hfd).1 hk
      | false => exact h.apart k hk (h.left hclean k hfd).1
  case mem =>
    intro k
    have hhanded : e.cleanup = false → e.fd = some k → k ∈ e.handed := fun hclean hfd =>
      (h.left hclean k hfd).1
    simp only [List.mem_append, hmem, h.mem k]
    grind
  case own => grind
  case left =>
    intro hclean k hk
    obtain ⟨hfd, hstate⟩ := hleft hclean (Option.isSome_iff_exists.mpr ⟨k, hk⟩)
    exact ⟨List.mem_append_right _ ((hmem k).mpr (hfd ▸ hk)), hstate⟩

/-- `transferOwnership` cancels the `Defer`: the caller closes the descriptor. -/
theorem Accounts.transferOwnership (h : Accounts e) : Accounts e.transferOwnership :=
  h.hand nofun fun _ _ => ⟨rfl, nofun⟩

/-- `transfer` leaves nothing for the `Defer` to close. -/
theorem Accounts.transfer (h : Accounts e) : Accounts e.transfer :=
  h.hand (fun _ => rfl) fun _ hsome => by cases hsome

/-- The ways in which a constructor ends, when its object has a socket. -/
theorem Accounts.giveUp (h : Accounts e) (ok : Bool) {rest : EndPoint κ} (hrest : Accounts rest) :
    Accounts (if !ok then e else rest) := by
  split
  · exact h
  · exact hrest

/-- Wherever the constructor of `UnixServer` gives up, the descriptor is with the object. -/
theorem accounts_unixServer (c : Calls κ) : Accounts (unixServer c) := by
  have h : Accounts ((setCleanup {}).setFd c.fd) := accounts_empty.acquire rfl (by simp)
  exact (accounts_empty.setCleanup rfl).giveUp _
    (h.trigger.giveUp _ (h.trigger.giveUp _ h.setInitialized))

/-- `initialize` of a `TcpipServer` closes the descriptor of an earlier attempt before it opens
    another one. -/
theorem Accounts.tcpipInitialize (h : Accounts e) (reuseport : Bool)
    (hfresh : ∀ k ∈ c.fd, k ∉ e.opened) : Accounts (e.tcpipInitialize reuseport c) := by
  rw [EndPoint.tcpipInitialize]
  split
  case isFalse => exact h
  case isTrue hstate =>
    have h' := h.acquire hstate hfresh
    refine h'.giveUp _ ?_
    split
    · exact h'
    · exact h'.giveUp _ (h'.giveUp _ h'.setInitialized)

/-- The constructor of `TcpipServer`, which leaves the initialization for later if it is lazy. -/
theorem accounts_tcpipServer (lazy : Bool) (c : Calls κ) : Accounts (tcpipServer lazy c) := by
  rw [tcpipServer]
  split
  · exact accounts_empty
  · exact accounts_empty.tcpipInitialize false (by simp)

/-- The constructor of `UnixClient`. -/
theorem accounts_unixClient (c : Calls κ) : Accounts (unixClient c) := by
  have h : Accounts ((setCleanup {}).setFd c.fd) := accounts_empty.acquire rfl (by simp)
  exact h.giveUp _ (h.giveUp _ h.setInitialized)

/-- The constructor of `TcpipClient`. -/
theorem accounts_tcpipClient (c : Calls κ) : Accounts (tcpipClient c) := by
  have h : Accounts ((setCleanup {}).setFd c.fd) := accounts_empty.acquire rfl (by simp)
  exact h.giveUp _ (h.giveUp _ (h.giveUp _ h.setInitialized))

/-- The closure is set after the descriptor is there. -/
theorem accounts_setFd_some (k : κ) : Accounts (setFd {} (some k)).setCleanup :=
  accounts_empty.acquire rfl (by simp)

/-- The constructor of `SignalFd`. -/
theorem accounts_signalFd (c : Calls κ) : Accounts (signalFd c) := by
  rw [signalFd]
  cases c.fd with
  | none => exact accounts_empty.setInitialized
  | some k => exact (accounts_setFd_some k).setInitialized

/-- The constructor of a timer. -/
theorem accounts_timer (c : Calls κ) : Accounts (timer c) := by
  rw [timer]
  cases c.fd with
  | none => exact accounts_empty
  | some k => exact (accounts_setFd_some k).setInitialized

/-! ### The objects of a forwarder -/

/-- Setting a `Defer` hands nothing out. -/
theorem handed_setCleanup (e : EndPoint κ) : e.setCleanup.handed = e.handed := trigger_handed e

/-- Nothing is handed out by the constructor of `UnixServer`. -/
theorem handed_unixServer (c : Calls κ) : (unixServer c).handed = [] := by
  simp only [unixServer]
  split_ifs <;> simp [trigger_handed, setFd, setInitialized, handed_setCleanup]

/-- Nothing is handed out by the constructor of `TcpipServer`. -/
theorem handed_tcpipServer (lazy : Bool) (c : Calls κ) : (tcpipServer lazy c).handed = [] := by
  simp only [tcpipServer, tcpipInitialize]
  split_ifs <;> simp [setFd, setInitialized, handed_setCleanup]

/-- Nothing is handed out by the constructor of `SignalFd`. -/
theorem handed_signalFd (c : Calls κ) : (signalFd c).handed = [] := by
  simp only [signalFd]
  split_ifs <;> simp [setFd, setInitialized, handed_setCleanup]

/-- Also without a descriptor. -/
theorem valid_signalFd (c : Calls κ) : (signalFd c).valid = true := rfl

/-- An object that does not own a descriptor any more. -/
theorem Accounts.perm (h : Accounts e) (hclean : e.cleanup = false) (hhanded : e.handed.Nodup) :
    e.opened.Perm (e.closed ++ e.handed) := by
  rw [List.perm_ext_iff_of_nodup h.opened (h.closed.append hhanded h.apart)]
  intro k
  rw [h.mem k, hclean, List.mem_append]
  simp

end EndPoint

/-! ### The life of an object -/

/-- The classes that are an `EndPoint`. -/
inductive EndPointClass where
  | UnixServer
  | UnixClient
  | TcpipServer (lazy : Bool)
  | TcpipClient
  | SignalFd
  | Timer
  deriving DecidableEq

/-- The constructor of a class. -/
def EndPointClass.construct {κ : Type*} (c : Calls κ) : EndPointClass → EndPoint κ
  | .UnixServer       => .unixServer c
  | .UnixClient       => .unixClient c
  | .TcpipServer lazy => .tcpipServer lazy c
  | .TcpipClient      => .tcpipClient c
  | .SignalFd         => .signalFd c
  | .Timer            => .timer c

/-- **Every constructor keeps the accounts**, whichever of its calls fail: a descriptor that was
    opened stays with the object, whose `Defer` closes it. -/
theorem EndPointClass.accounts {κ : Type*} (c : Calls κ) (cls : EndPointClass) :
    (cls.construct c).Accounts := by
  cases cls with
  | UnixServer => exact EndPoint.accounts_unixServer c
  | UnixClient => exact EndPoint.accounts_unixClient c
  | TcpipServer lazy => exact EndPoint.accounts_tcpipServer lazy c
  | TcpipClient => exact EndPoint.accounts_tcpipClient c
  | SignalFd => exact EndPoint.accounts_signalFd c
  | Timer => exact EndPoint.accounts_timer c

/-- An object of one of the classes, before its constructor is called (`cls` is `none`), in use, or
    destroyed.  `reuseport` is the option of a `TcpipServer`. -/
structure EndPointObject (κ : Type*) where
  cls : Option EndPointClass := none
  endPoint : EndPoint κ := {}
  reuseport : Bool := false
  destroyed : Bool := false

namespace EndPointObject

variable {κ : Type*} [DecidableEq κ]

/-- `EndPoint::initialize` is public as well, and hidden in a `TcpipServer`. -/
inductive Act (κ : Type*) where
  | construct (cls : EndPointClass) (c : Calls κ)
  | enableSharePort
  | tcpipInitialize (c : Calls κ)
  | setInitialized
  | transferOwnership
  | transfer
  | destroy

/-- The object was constructed, and its destructor has not run. -/
def alive (o : EndPointObject κ) : Prop := o.cls.isSome ∧ o.destroyed = false

instance (o : EndPointObject κ) : Decidable o.alive := inferInstanceAs (Decidable (_ ∧ _))

/-- The class is a `TcpipServer`. -/
def tcpip (o : EndPointObject κ) : Prop :=
  o.alive ∧ ∃ lazy, o.cls = some (.TcpipServer lazy)

instance (o : EndPointObject κ) : Decidable o.tcpip := inferInstanceAs (Decidable (_ ∧ _))

/-- A call of a member function, of one of the constructors or of the destructor; `none` for a call
    on an object that is not there. -/
def step (o : EndPointObject κ) : Act κ → Option (EndPointObject κ)
  | .construct cls c =>
    if o.cls = none then some { o with cls := some cls, endPoint := cls.construct c } else none
  | .enableSharePort => if o.tcpip then some { o with reuseport := true } else none
  | .tcpipInitialize c =>
    if o.tcpip ∧ ∀ k ∈ c.fd, k ∉ o.endPoint.opened then
      some { o with endPoint := o.endPoint.tcpipInitialize o.reuseport c }
    else none
  | .setInitialized =>
    if o.alive then some { o with endPoint := o.endPoint.setInitialized } else none
  | .transferOwnership =>
    if o.alive then some { o with endPoint := o.endPoint.transferOwnership } else none
  | .transfer => if o.alive then some { o with endPoint := o.endPoint.transfer } else none
  | .destroy =>
    if o.alive then some { o with endPoint := o.endPoint.trigger, destroyed := true } else none

/-- The accounts, and no closure once the object is destroyed. -/
structure Inv (o : EndPointObject κ) : Prop where
  accounts : o.endPoint.Accounts
  destroyed : o.destroyed = true → o.cls.isSome ∧ o.endPoint.cleanup = false

/-- **One call keeps the accounts**, whatever was called before and whatever the system calls
    return. -/
theorem inv_step (o : EndPointObject κ) (a : Act κ) (t : EndPointObject κ) (h : Inv o)
    (hst : o.step a = some t) : Inv t := by
  have hlive : o.alive → o.destroyed = true → False := fun ha hd => by simp [ha.2] at hd
  cases a <;>
    simp only [step, Option.ite_none_right_eq_some, Option.some.injEq] at hst <;>
    obtain ⟨hok, rfl⟩ := hst
  case construct cls c =>
    exact ⟨cls.accounts c, fun hd => by simpa [hok] using (h.destroyed hd).1⟩
  case enableSharePort => exact { h with }
  case tcpipInitialize c =>
    exact ⟨h.accounts.tcpipInitialize _ hok.2, fun hd => (hlive hok.1.1 hd).elim⟩
  case setInitialized => exact ⟨h.accounts.setInitialized, fun hd => (hlive hok hd).elim⟩
  case transferOwnership =>
    exact ⟨h.accounts.transferOwnership, fun hd => (hlive hok hd).elim⟩
  case transfer => exact ⟨h.accounts.transfer, fun hd => (hlive hok hd).elim⟩
  case destroy => exact ⟨h.accounts.trigger, fun _ => ⟨hok.1, EndPoint.trigger_cleanup _⟩⟩

/-- The accounts of every object that a client can have. -/
theorem inv_reachable {o : EndPointObject κ} {as : List (Act κ)} (h : exec step {} as = some o) :
    Inv o :=
  exec_invariant inv_step ⟨EndPoint.accounts_empty, by simp⟩ h

/-- **Closed or handed out.**  Whatever system calls fail, however often `initialize` is called
    again, and whatever a caller takes: when the object is destroyed, each descriptor that it has
    opened was either closed, and only once, or given to a caller. -/
theorem closed_or_handed {o : EndPointObject κ} {as : List (Act κ)}
    (hrun : exec step {} as = some o) (hdestroyed : o.destroyed = true) :
    o.endPoint.opened.Nodup ∧ o.endPoint.closed.Nodup ∧
      ∀ k, k ∈ o.endPoint.opened ↔ Xor (k ∈ o.endPoint.closed) (k ∈ o.endPoint.handed) := by
  obtain ⟨h, hclean⟩ := inv_reachable hrun
  refine ⟨h.opened, h.closed, fun k => ?_⟩
  have hapart := h.apart k
  rw [h.mem k, (hclean hdestroyed).2, Xor]
  grind

/-- A `TcpipServer` whose `bind` fails at first: the socket of the first call is closed by the
    second one. -/
theorem closed_or_handed_retried : ∃ o : EndPointObject Nat,
    exec step {} [.construct (.TcpipServer true) { fd := none },
        .tcpipInitialize { fd := some 3, bind := false }, .tcpipInitialize { fd := some 4 },
        .transferOwnership, .destroy] = some o ∧
      (o.endPoint.opened, o.endPoint.closed, o.endPoint.handed) = ([3, 4], [3], [4]) ∧
      ∀ k, k ∈ o.endPoint.opened ↔ Xor (k ∈ o.endPoint.closed) (k ∈ o.endPoint.handed) := by
  obtain ⟨o, hrun, ho⟩ := exists_of_exec_any
    (show (exec step ({} : EndPointObject Nat) [.construct (.TcpipServer true) { fd := none },
        .tcpipInitialize { fd := some 3, bind := false }, .tcpipInitialize { fd := some 4 },
        .transferOwnership, .destroy]).any (fun o => o.destroyed ∧
          (o.endPoint.opened, o.endPoint.closed, o.endPoint.handed) = ([3, 4], [3], [4])) = true by
      decide +kernel)
  obtain ⟨hdestroyed, hlists⟩ := of_decide_eq_true ho
  exact ⟨o, hrun, hlists, (closed_or_handed hrun hdestroyed).2.2⟩

end EndPointObject

end CPlayground.Monitor
