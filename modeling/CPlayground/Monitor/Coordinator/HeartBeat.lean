import CPlayground.Lib.Trace
import CPlayground.Monitor.Poll
import CPlayground.Monitor.TimeWheel
import Mathlib.Order.Basic

namespace CPlayground.Monitor

open CPlayground.Table CPlayground.Trace

/-!
# `Coordinator`: the heartbeats of the workers

Every accepted connection and every ping pushes a shared pointer to the connection's
`WorkerHeartBeatInfo` into the current slot of a `TimeWheel` of ten slots; `heartBeatInfo` holds one
more copy.  A tick takes the oldest slot away.  A pointer in it that has one more copy is taken to
be the last sign of its worker, which is kicked out.

* `HeartBeats` — the wheel, the map and the poll entries, with the history of pushes and evictions.
  The shared pointers to one `WorkerHeartBeatInfo` are the copies of one value.
* `live_worker_kept` — if no more than one copy of a pointer is left in the wheel when a new
  connection takes over its descriptor, then only workers without a push in the last ten ticks are
  kicked out.  With two copies, the new connection is, see `live_worker_kicked`.
* `silent_worker_kicked` — if no pointer is pushed twice between two ticks, then every worker
  without a push in the last ten ticks is gone.  One that was pushed twice stays for ever, see
  `silent_worker_stays`.

`pid` and `timestamp` of a `WorkerHeartBeatInfo` are only printed and sent, and left out.
-/

/-- `WorkerHeartBeatInfo`, with the number of its connection. -/
structure WorkerHeartBeatInfo where
  conn : Nat
  handler : Nat
  deriving DecidableEq

/-- The globals of the coordinator's heartbeat, with its poll entries. -/
structure HeartBeats where
  timeWheel : TimeWheel WorkerHeartBeatInfo 10
  heartBeatInfo : AList fun _ : Nat => WorkerHeartBeatInfo
  poll : Poll WorkerHeartBeatInfo
  /-- The number of connections accepted so far. -/
  accepted : Nat
  ticks : Nat
  /-- The pushes so far, each with the number of ticks before it. -/
  pushed : List (WorkerHeartBeatInfo × Nat)
  /-- The connections whose entries were removed by a tick, with the number of the tick. -/
  kicked : List (WorkerHeartBeatInfo × Nat)
  undefined : Bool

namespace HeartBeats

/-- No worker is connected, and the wheel is empty. -/
def init : HeartBeats := ⟨.new (by decide), ∅, .empty, 0, 0, [], [], false⟩

/-- `timeWheel.current().push_back(info)`. -/
def push (s : HeartBeats) (info : WorkerHeartBeatInfo) : HeartBeats :=
  { s with timeWheel := s.timeWheel.push info, pushed := (info, s.ticks) :: s.pushed }

/-- `AcceptWorkerConnection`. -/
def acceptWorkerConnection (s : HeartBeats) (sock : Nat) : HeartBeats :=
  let info : WorkerHeartBeatInfo := ⟨s.accepted, sock⟩
  let s := { s with heartBeatInfo := s.heartBeatInfo.insert sock info, accepted := s.accepted + 1 }
  { s.push info with poll := (s.poll.accept sock info).registerEntry sock info }

/-- `OnRecvHeartBeat` for a ping.  `heartBeatInfo[fd]` makes a null pointer if there is none. -/
def onRecvHeartBeat (s : HeartBeats) (fd : Nat) : HeartBeats :=
  match s.heartBeatInfo.lookup fd with
  | none      => { s with undefined := true }
  | some info => s.push info

/-- `use_count`, while `slot` has been taken from the wheel. -/
def use_count (s : HeartBeats) (slot : List WorkerHeartBeatInfo) (info : WorkerHeartBeatInfo) :
    Nat :=
  slot.count info + s.timeWheel.copies info + (values s.heartBeatInfo).count info

/-- The body of the loop of `OnWheelTick`. -/
def kick (slot : List WorkerHeartBeatInfo) (s : HeartBeats) (i : WorkerHeartBeatInfo) :
    HeartBeats :=
  if s.use_count slot i = 2 then
    { s with
      poll := s.poll.erase i.handler
      heartBeatInfo := s.heartBeatInfo.erase i.handler
      kicked := match s.poll.entry_map.lookup i.handler with
        | some info => (info, s.ticks) :: s.kicked
        | none      => s.kicked }
  else s

/-- `OnWheelTick`. -/
def onWheelTick (s : HeartBeats) : HeartBeats :=
  let slot := s.timeWheel.tick.1
  slot.foldl (kick slot) { s with timeWheel := s.timeWheel.tick.2, ticks := s.ticks + 1 }

/-- The events the loop handles: a new connection, a message, a hangup, and a tick of the wheel. -/
inductive Act where
  | accept (fd : Nat)
  | ping (fd : Nat)
  /-- A message that is not a ping. -/
  | unknown (fd : Nat)
  /-- `EPOLLRDHUP`: the peer has closed. -/
  | close (fd : Nat)
  | tick
  deriving DecidableEq

/-- One event.  `accept` returns a descriptor that is not open; messages come on descriptors with an
    entry. -/
def step (s : HeartBeats) : Act → Option HeartBeats
  | .accept fd  => if s.poll.fds.lookup fd = none then some (s.acceptWorkerConnection fd) else none
  | .ping fd    => if fd ∈ s.poll.entry_map then some (s.onRecvHeartBeat fd) else none
  | .unknown fd => if fd ∈ s.poll.entry_map then some s else none
  | .close fd   => if fd ∈ s.poll.entry_map then some { s with poll := s.poll.erase fd } else none
  | .tick       => some s.onWheelTick

/-! ### What holds in every run -/

variable {s s' : HeartBeats} {x : WorkerHeartBeatInfo}

/-- What holds in every reachable state: every poll entry is the one that the map has for its
    descriptor, a pointer in the map is under its own descriptor, and a slot of the wheel has what
    was pushed while it was the current one. -/
structure Sound (s : HeartBeats) : Prop where
  defined : s.undefined = false
  owned : s.poll.Owned
  /-- A connection with a poll entry is the one `heartBeatInfo` has for its descriptor. -/
  entry : ∀ fd x, s.poll.entry_map.lookup fd = some x → s.heartBeatInfo.lookup fd = some x
  handler : ∀ fd x, s.heartBeatInfo.lookup fd = some x → x.handler = fd
  conn_lt : ∀ fd x, s.heartBeatInfo.lookup fd = some x → x.conn < s.accepted
  pushed_lt : ∀ x k, (x, k) ∈ s.pushed → x.conn < s.accepted ∧ k ≤ s.ticks
  /-- A slot holds what was pushed while it was the current one. -/
  aged : ∀ j slot, s.timeWheel.ages[j]? = some slot →
    ∀ x, x ∈ slot ↔ ∃ k, (x, k) ∈ s.pushed ∧ k + j = s.ticks

/-- There are no pointers at all. -/
theorem sound_init : Sound init where
  defined := rfl
  owned := Poll.owned_empty
  entry fd x h := absurd h lookup_empty_ne_some
  handler fd x h := absurd h lookup_empty_ne_some
  conn_lt fd x h := absurd h lookup_empty_ne_some
  pushed_lt := nofun
  aged j slot h x := by
    rw [TimeWheel.ages_new (by decide) slot (List.mem_of_getElem? h)]
    simp [init]

/-- The wheel holds the pushes of the last ten ticks: a pointer has a copy in it exactly if it was
    pushed in one of them. -/
theorem Sound.copies_pos (h : Sound s) :
    0 < s.timeWheel.copies x ↔ ∃ k, (x, k) ∈ s.pushed ∧ s.ticks < k + 10 := by
  rw [TimeWheel.copies_pos]
  constructor
  · rintro ⟨slot, hslot, hx⟩
    obtain ⟨j, hj, hget⟩ := List.mem_iff_getElem.mp hslot
    obtain ⟨k, hk, hticks⟩ := (h.aged j slot (hget ▸ List.getElem?_eq_getElem hj) x).mp hx
    rw [TimeWheel.length_ages] at hj
    exact ⟨k, hk, by omega⟩
  · rintro ⟨k, hk, hticks⟩
    have hle := (h.pushed_lt x k hk).2
    have hj : s.ticks - k < s.timeWheel.ages.length := by
      rw [TimeWheel.length_ages]
      omega
    refine ⟨_, List.getElem_mem hj, (h.aged _ _ (List.getElem?_eq_getElem hj) x).mpr ⟨k, hk, ?_⟩⟩
    omega

/-- A push puts its pointer into the slot of age zero, and the other slots are as they were. -/
theorem aged_push (h : Sound s) (y : WorkerHeartBeatInfo) :
    ∀ j slot, (s.push y).timeWheel.ages[j]? = some slot →
      ∀ x, x ∈ slot ↔ ∃ k, (x, k) ∈ (s.push y).pushed ∧ k + j = s.ticks := by
  intro j slot hslot x
  obtain ⟨older, hages, hpush⟩ := s.timeWheel.ages_push y
  rw [show (s.push y).timeWheel = s.timeWheel.push y from rfl, hpush] at hslot
  rw [show (s.push y).pushed = (y, s.ticks) :: s.pushed from rfl]
  cases j with
  -- the current slot has one pointer more, and the older ones are as they were
  | zero =>
    cases hslot
    have hcurrent := h.aged 0 s.timeWheel.current (by rw [hages]; rfl) x
    rw [List.mem_append, List.mem_singleton, hcurrent]
    simp only [List.mem_cons, Prod.mk.injEq]
    constructor
    · rintro (⟨k, hk, hticks⟩ | rfl)
      · exact ⟨k, .inr hk, hticks⟩
      · exact ⟨s.ticks, .inl ⟨rfl, rfl⟩, rfl⟩
    · rintro ⟨k, ⟨rfl, -⟩ | hk, hticks⟩
      · exact .inr rfl
      · exact .inl ⟨k, hk, hticks⟩
  | succ j =>
    rw [h.aged (j + 1) slot (by rw [hages]; exact hslot) x]
    refine exists_congr fun k => and_congr_left fun hticks => ?_
    rw [List.mem_cons, Prod.mk.injEq, or_iff_right]
    rintro ⟨-, rfl⟩
    omega

/-- A tick makes every slot one tick older; the new slot of age zero is empty, and the oldest one is
    taken away. -/
theorem aged_tick (h : Sound s) :
    ∀ j slot, s.timeWheel.tick.2.ages[j]? = some slot →
      ∀ x, x ∈ slot ↔ ∃ k, (x, k) ∈ s.pushed ∧ k + j = s.ticks + 1 := by
  intro j slot hslot x
  obtain ⟨older, hages, htick⟩ := s.timeWheel.ages_tick
  rw [htick] at hslot
  cases j with
  | zero =>
    cases hslot
    refine ⟨nofun, fun ⟨k, hk, hticks⟩ => ?_⟩
    have hle := (h.pushed_lt x k hk).2
    omega
  | succ j =>
    rw [List.getElem?_cons_succ] at hslot
    have hj : j < older.length := (List.getElem?_eq_some_iff.mp hslot).1
    rw [h.aged j slot (by rw [hages, List.getElem?_append_left hj]; exact hslot) x]
    refine exists_congr fun k => and_congr_right fun _ => ?_
    omega

/-- A new connection puts its pointer in the map and in the current slot; its descriptor was free,
    so no entry has it. -/
theorem sound_accept (h : Sound s) {fd : Nat} (hfree : s.poll.fds.lookup fd = none) :
    Sound (s.acceptWorkerConnection fd) := by
  have hpoll : (s.poll.accept fd _).registerEntry fd ⟨s.accepted, fd⟩ = _ :=
    Poll.register_accept h.owned hfree
  refine ⟨h.defined, ?_, ?_, ?_, ?_, ?_, aged_push h ⟨s.accepted, fd⟩⟩
  · show Poll.Owned ((s.poll.accept fd _).registerEntry fd _)
    rw [hpoll]
    exact Poll.owned_insert h.owned
  · intro k x hk
    rw [show (s.acceptWorkerConnection fd).poll = _ from hpoll, lookup_insert_eq_some] at hk
    exact lookup_insert_eq_some.mpr (hk.imp_right fun ⟨hne, hlook⟩ => ⟨hne, h.entry k x hlook⟩)
  · intro k x hk
    rcases lookup_insert_eq_some.mp hk with ⟨rfl, rfl⟩ | ⟨-, hk⟩
    · rfl
    · exact h.handler k x hk
  · intro k x hk
    rcases lookup_insert_eq_some.mp hk with ⟨rfl, rfl⟩ | ⟨-, hk⟩
    · exact Nat.lt_succ_self _
    · exact (h.conn_lt k x hk).trans (Nat.lt_succ_self _)
  · intro x k hk
    rcases List.mem_cons.mp hk with heq | hk
    · cases heq
      exact ⟨Nat.lt_succ_self _, Nat.le_refl _⟩
    · exact ⟨(h.pushed_lt x k hk).1.trans (Nat.lt_succ_self _), (h.pushed_lt x k hk).2⟩

/-- A ping adds one copy of a pointer that the map has. -/
theorem sound_push (h : Sound s) {fd : Nat} (hx : s.heartBeatInfo.lookup fd = some x) :
    Sound (s.push x) := by
  refine ⟨h.defined, h.owned, h.entry, h.handler, h.conn_lt, ?_, aged_push h x⟩
  intro y k hk
  rcases List.mem_cons.mp hk with heq | hk
  · cases heq
    exact ⟨h.conn_lt fd x hx, Nat.le_refl _⟩
  · exact h.pushed_lt y k hk

/-- A worker that is kicked out loses its entry, and its pointer leaves the map. -/
theorem sound_kick {slot : List WorkerHeartBeatInfo} (h : Sound s) (i : WorkerHeartBeatInfo) :
    Sound (kick slot s i) := by
  rw [kick]
  split
  · refine ⟨h.defined, h.owned.erase _, ?_, ?_, ?_, h.pushed_lt, h.aged⟩
    · intro k x hk
      obtain ⟨hne, hlook⟩ := Poll.lookup_erase_entry.mp hk
      exact lookup_erase_eq_some.mpr ⟨hne, h.entry k x hlook⟩
    · intro k x hk
      exact h.handler k x (lookup_erase_eq_some.mp hk).2
    · intro k x hk
      exact h.conn_lt k x (lookup_erase_eq_some.mp hk).2
  · exact h

/-- The state in which the loop of `OnWheelTick` starts. -/
theorem sound_ticked (h : Sound s) :
    Sound { s with timeWheel := s.timeWheel.tick.2, ticks := s.ticks + 1 } :=
  ⟨h.defined, h.owned, h.entry, h.handler, h.conn_lt,
    fun x k hk => ⟨(h.pushed_lt x k hk).1, Nat.le_succ_of_le (h.pushed_lt x k hk).2⟩, aged_tick h⟩

/-! ### What an event can do -/

/-- The outcomes of an event, one constructor for each branch of the callbacks. -/
inductive Move (s : HeartBeats) : Act → HeartBeats → Prop where
  | accepted (fd : Nat) (hfree : s.poll.fds.lookup fd = none) :
      Move s (.accept fd) (s.acceptWorkerConnection fd)
  | pinged (fd : Nat) (x : WorkerHeartBeatInfo) (hx : s.heartBeatInfo.lookup fd = some x) :
      Move s (.ping fd) (s.push x)
  | unknown (fd : Nat) : Move s (.unknown fd) s
  | closed (fd : Nat) : Move s (.close fd) { s with poll := s.poll.erase fd }
  | ticked : Move s .tick s.onWheelTick

/-- **The inversion lemma**: every step is one of the moves.  In a sound state a ping finds its
    pointer in the map. -/
theorem move_of_step (h : Sound s) {a : Act} (hst : s.step a = some s') : Move s a s' := by
  cases a with
  | accept fd =>
    rw [step, Option.ite_none_right_eq_some, Option.some.injEq] at hst
    obtain ⟨hfree, rfl⟩ := hst
    exact .accepted fd hfree
  | ping fd =>
    rw [step, Option.ite_none_right_eq_some, Option.some.injEq] at hst
    obtain ⟨hmem, rfl⟩ := hst
    obtain ⟨x, hx⟩ := Option.isSome_iff_exists.mp (AList.lookup_isSome.mpr hmem)
    rw [onRecvHeartBeat, h.entry fd x hx]
    exact .pinged fd x (h.entry fd x hx)
  | unknown fd =>
    rw [step, Option.ite_none_right_eq_some, Option.some.injEq] at hst
    obtain ⟨-, rfl⟩ := hst
    exact .unknown fd
  | close fd =>
    rw [step, Option.ite_none_right_eq_some, Option.some.injEq] at hst
    obtain ⟨-, rfl⟩ := hst
    exact .closed fd
  | tick =>
    cases hst
    exact .ticked

/-- **Every move keeps the tables together**: the map has the pointers of the entries, each under
    its own descriptor. -/
theorem sound_move (h : Sound s) {a : Act} (hm : Move s a s') : Sound s' := by
  cases hm with
  | accepted fd hfree => exact sound_accept h hfree
  | pinged fd x hx => exact sound_push h hx
  | unknown fd => exact h
  | closed fd =>
    exact ⟨h.defined, h.owned.erase fd, fun k x hk => h.entry k x (Poll.lookup_erase_entry.mp hk).2,
      h.handler, h.conn_lt, h.pushed_lt, h.aged⟩
  | ticked =>
    exact List.foldlRecOn _ _ (sound_ticked h) fun s h i _ => sound_kick h i

/-- The same for a step. -/
theorem sound_step {a : Act} (h : Sound s) (hst : s.step a = some s') : Sound s' :=
  sound_move h (move_of_step h hst)

/-- A pointer is in the map under its own descriptor only. -/
theorem Sound.mem_map (h : Sound s) :
    x ∈ values s.heartBeatInfo ↔ s.heartBeatInfo.lookup x.handler = some x := by
  rw [mem_values]
  constructor
  · rintro ⟨k, hk⟩
    rw [h.handler k x hk]
    exact hk
  · exact fun hk => ⟨_, hk⟩

/-- The pointers that are left when a descriptor is taken out of the map: a pointer is under its own
    descriptor. -/
theorem Sound.mem_values_erase (h : Sound s) {fd : Nat} :
    x ∈ values (s.heartBeatInfo.erase fd) ↔ x ∈ values s.heartBeatInfo ∧ x.handler ≠ fd := by
  rw [mem_values, h.mem_map]
  constructor
  · rintro ⟨k, hk⟩
    obtain ⟨hne, hk⟩ := lookup_erase_eq_some.mp hk
    obtain rfl := h.handler k x hk
    exact ⟨hk, hne⟩
  · rintro ⟨hk, hne⟩
    exact ⟨_, lookup_erase_eq_some.mpr ⟨hne, hk⟩⟩

/-- The map holds a pointer at most once. -/
theorem Sound.count_values (h : Sound s) (hx : x ∈ values s.heartBeatInfo) :
    (values s.heartBeatInfo).count x = 1 := by
  obtain ⟨fd, hfd⟩ := mem_values.mp hx
  have hgone : x ∉ values (s.heartBeatInfo.erase fd) := fun hmem =>
    (h.mem_values_erase.mp hmem).2 (h.handler fd x hfd)
  rw [(values_erase hfd).count_eq, List.count_cons_self, List.count_eq_zero.mpr hgone]

/-! ### A live worker is kept -/

/-- When a new connection takes over a descriptor, at most one copy of the pointer that it replaces
    is left in the wheel. -/
def LastCopy (s : HeartBeats) : Act → Prop
  | .accept fd => ∀ x ∈ s.heartBeatInfo.lookup fd, s.timeWheel.copies x ≤ 1
  | _ => True

instance decidableLastCopy (s : HeartBeats) : (a : Act) → Decidable (LastCopy s a)
  | .accept _ => inferInstanceAs (Decidable (∀ x ∈ _, _))
  | .ping _ | .unknown _ | .close _ | .tick => .isTrue trivial

/-- While `slot` is handled: a pointer that is not in the map has a single copy, and whoever was
    kicked out had not pushed in the last ten ticks and does not come back. -/
structure Kept (slot : List WorkerHeartBeatInfo) (s : HeartBeats) : Prop where
  stale : ∀ x, x ∉ values s.heartBeatInfo → slot.count x + s.timeWheel.copies x ≤ 1
  gone : ∀ x T, (x, T) ∈ s.kicked → x ∉ values s.heartBeatInfo ∧ x.conn < s.accepted
  silent : ∀ x T, (x, T) ∈ s.kicked → ∀ k, (x, k) ∈ s.pushed → k + 10 ≤ T

/-- Nobody was kicked out. -/
theorem kept_init : Kept [] init := by
  refine ⟨fun x _ => ?_, nofun, nofun⟩
  have hzero : ¬ 0 < init.timeWheel.copies x := by
    rw [sound_init.copies_pos]
    rintro ⟨k, hk, -⟩
    cases hk
  rw [List.count_nil]
  omega

/-- A worker of the slot is only kicked out if its last push was ten ticks ago. -/
theorem kept_kick {slot : List WorkerHeartBeatInfo} (hs : Sound s) (h : Kept slot s)
    {i : WorkerHeartBeatInfo} (hi : i ∈ slot) : Kept slot (kick slot s i) := by
  rw [kick]
  split
  · rename_i hcount
    rw [use_count] at hcount
    have hslot : 0 < slot.count i := List.count_pos_iff.mpr hi
    -- two copies outside the map would contradict the invariant
    have hmem : i ∈ values s.heartBeatInfo := by
      by_contra hmem
      have hstale := h.stale i hmem
      rw [List.count_eq_zero.mpr hmem] at hcount
      omega
    rw [hs.count_values hmem] at hcount
    have hlookup := hs.mem_map.mp hmem
    -- the connection that uses the descriptor is the one of this pointer
    have hkick : ∀ x T, (x, T) ∈ (match s.poll.entry_map.lookup i.handler with
        | some info => (info, s.ticks) :: s.kicked
        | none      => s.kicked) → (x = i ∧ T = s.ticks) ∨ (x, T) ∈ s.kicked := by
      intro x T hkicked
      split at hkicked
      · rename_i y hy
        obtain rfl : i = y := Option.some.inj (hlookup.symm.trans (hs.entry _ y hy))
        simpa using hkicked
      · exact .inr hkicked
    refine ⟨fun x hx => ?_, fun x T hkicked => ?_, fun x T hkicked k hk => ?_⟩
    · by_cases hxmem : x ∈ values s.heartBeatInfo
      · have hhandler : x.handler = i.handler :=
          not_not.mp fun hne => hx (hs.mem_values_erase.mpr ⟨hxmem, hne⟩)
        have hxlookup := hs.mem_map.mp hxmem
        rw [hhandler, hlookup, Option.some.injEq] at hxlookup
        subst hxlookup
        show slot.count i + s.timeWheel.copies i ≤ 1
        omega
      · exact h.stale x hxmem
    · rcases hkick x T hkicked with ⟨rfl, -⟩ | hold
      · exact ⟨fun hx => (hs.mem_values_erase.mp hx).2 rfl, hs.conn_lt _ _ hlookup⟩
      · exact ⟨fun hx => (h.gone x T hold).1 (hs.mem_values_erase.mp hx).1, (h.gone x T hold).2⟩
    · rcases hkick x T hkicked with ⟨rfl, rfl⟩ | hold
      · by_contra hlate
        have hpos : 0 < s.timeWheel.copies x := hs.copies_pos.mpr ⟨k, hk, by omega⟩
        omega
      · exact h.silent x T hold k hk
  · exact h

/-- A push is newer than all ticks. -/
theorem kept_push (h : Kept [] s) (hx : x ∈ values s.heartBeatInfo) :
    Kept [] (s.push x) := by
  refine ⟨fun y hy => ?_, h.gone, fun y T hkicked k hk => ?_⟩
  · have hne : x ≠ y := fun heq => hy (heq ▸ hx)
    rw [show (s.push x).timeWheel = s.timeWheel.push x from rfl, TimeWheel.copies_push, if_neg hne]
    exact h.stale y hy
  · rcases List.mem_cons.mp hk with heq | hk
    · cases heq
      exact absurd hx (h.gone _ T hkicked).1
    · exact h.silent y T hkicked k hk

/-- `heartBeatInfo[sock] = info` for a new connection.  It replaces the pointer of an earlier one
    with this descriptor, if that is still there. -/
theorem kept_insert (hs : Sound s) (h : Kept [] s) {fd : Nat} (hlast : LastCopy s (.accept fd)) :
    Kept [] { s with heartBeatInfo := s.heartBeatInfo.insert fd ⟨s.accepted, fd⟩
                     accepted := s.accepted + 1 } := by
  refine ⟨fun x hx => ?_, fun x T hkicked => ?_, h.silent⟩
  · by_cases hmem : x ∈ values s.heartBeatInfo
    · -- the pointer that is replaced
      have hlookup := hs.mem_map.mp hmem
      have hfd : x.handler = fd := not_not.mp fun hne =>
        hx (mem_values.mpr ⟨_, lookup_insert_eq_some.mpr (.inr ⟨hne, hlookup⟩)⟩)
      rw [List.count_nil, Nat.zero_add]
      exact hlast x (hfd ▸ hlookup)
    · exact h.stale x hmem
  · obtain ⟨hgone, hlt⟩ := h.gone x T hkicked
    refine ⟨fun hx => ?_, hlt.trans (Nat.lt_succ_self _)⟩
    obtain ⟨k, hk⟩ := mem_values.mp hx
    rcases lookup_insert_eq_some.mp hk with ⟨-, rfl⟩ | ⟨-, hk⟩
    · exact lt_irrefl _ hlt
    · exact hgone (mem_values.mpr ⟨k, hk⟩)

/-- **A move keeps the live workers**, if a new connection never takes over a descriptor whose old
    pointer has more than one copy in the wheel. -/
theorem kept_move (hs : Sound s) (h : Kept [] s) {a : Act} (hlast : LastCopy s a)
    (hm : Move s a s') : Kept [] s' := by
  cases hm with
  | accepted fd hfree =>
    have hinsert := kept_insert hs h hlast
    have hkept := kept_push hinsert
      (mem_values.mpr ⟨fd, lookup_insert_eq_some.mpr (.inl ⟨rfl, rfl⟩)⟩)
    exact ⟨hkept.stale, hkept.gone, hkept.silent⟩
  | pinged fd x hx => exact kept_push h (mem_values.mpr ⟨fd, hx⟩)
  | unknown fd => exact h
  | closed fd => exact ⟨h.stale, h.gone, h.silent⟩
  | ticked =>
    have hstart : Kept s.timeWheel.tick.1
        { s with timeWheel := s.timeWheel.tick.2, ticks := s.ticks + 1 } := by
      refine ⟨fun x hx => ?_, h.gone, h.silent⟩
      have hstale := h.stale x hx
      rw [List.count_nil, Nat.zero_add, TimeWheel.copies_tick] at hstale
      exact hstale
    have hloop : Sound s.onWheelTick ∧ Kept s.timeWheel.tick.1 s.onWheelTick :=
      List.foldlRecOn (motive := fun t => Sound t ∧ Kept s.timeWheel.tick.1 t) _ _
        ⟨sound_ticked hs, hstart⟩ fun t ht i hi => ⟨sound_kick ht.1 i, kept_kick ht.1 ht.2 hi⟩
    refine ⟨fun x hx => ?_, hloop.2.gone, hloop.2.silent⟩
    exact (Nat.add_le_add_right (Nat.zero_le _) _).trans (hloop.2.stale x hx)

/-- **A live worker is never kicked out.**  In every run where at most one copy of a pointer is left
    in the wheel when another connection takes over its descriptor, a tick removes the entries of a
    descriptor only if the connection that uses it has had no push in the last ten ticks. -/
theorem live_worker_kept (acts : List Act) (s : HeartBeats) (hrun : exec step init acts = some s)
    (hlast : Along step LastCopy init acts) :
    ∀ x T, (x, T) ∈ s.kicked → ∀ k, (x, k) ∈ s.pushed → k + 10 ≤ T := by
  have hinv : Sound s ∧ Kept [] s :=
    exec_invariants_along (fun _ _ _ => sound_step)
      (fun _ _ _ hs hk hok hst => kept_move hs hk hok (move_of_step hs hst))
      sound_init kept_init hlast hrun
  exact hinv.2.silent

/-- A worker connects and closes, and another one takes its descriptor and is silent. -/
def takeover : List Act := [.accept 5, .close 5, .tick, .accept 5] ++ List.replicate 10 .tick

/-- The old connection on the descriptor is kicked out ten ticks after its only push; the new one
    stays. -/
theorem live_worker_kept_takeover : ∃ s, exec step init takeover = some s ∧
    (⟨1, 5⟩, 11) ∈ s.kicked ∧ (⟨1, 5⟩, 1) ∈ s.pushed ∧ 1 + 10 ≤ 11 := by
  obtain ⟨s, hrun, htest⟩ := exists_of_exec_any
    (show (exec step init takeover).any
      (fun s => (⟨1, 5⟩, 11) ∈ s.kicked ∧ (⟨1, 5⟩, 1) ∈ s.pushed) = true by decide +kernel)
  obtain ⟨hkicked, hpushed⟩ := of_decide_eq_true htest
  exact ⟨s, hrun, hkicked, hpushed,
    live_worker_kept takeover s hrun (by decide +kernel) _ _ hkicked _ hpushed⟩

/-- A worker connects, pings and closes before the first tick; another one takes its descriptor
    after nine ticks. -/
def reuse : List Act :=
  [.accept 5, .ping 5, .close 5] ++ List.replicate 9 .tick ++ [.accept 5, .tick]

/-- The tenth tick finds the two copies of the first worker's pointer and kicks the second worker
    out, which has connected one tick ago. -/
theorem live_worker_kicked : ∃ s, exec step init reuse = some s ∧ (⟨1, 5⟩, 10) ∈ s.kicked ∧
    (⟨1, 5⟩, 9) ∈ s.pushed := by
  obtain ⟨s, hrun, htest⟩ := exists_of_exec_any
    (show (exec step init reuse).any
      (fun s => (⟨1, 5⟩, 10) ∈ s.kicked ∧ (⟨1, 5⟩, 9) ∈ s.pushed) = true by decide +kernel)
  exact ⟨s, hrun, of_decide_eq_true htest⟩

/-! ### A silent worker is kicked out -/

/-- A ping is handled only while the current slot does not hold its pointer yet. -/
def OncePerTick (s : HeartBeats) : Act → Prop
  | .ping fd => ∀ x ∈ s.heartBeatInfo.lookup fd, x ∉ s.timeWheel.current
  | _ => True

instance decidableOncePerTick (s : HeartBeats) : (a : Act) → Decidable (OncePerTick s a)
  | .ping _ => inferInstanceAs (Decidable (∀ x ∈ _, _))
  | .accept _ | .unknown _ | .close _ | .tick => .isTrue trivial

/-- No slot holds a pointer twice, and every pointer in the map is in the wheel; so a slot that is
    taken away shows whether it has the last copy. -/
structure Prompt (s : HeartBeats) : Prop where
  nodup : ∀ slot ∈ s.timeWheel.ages, slot.Nodup
  held : ∀ x ∈ values s.heartBeatInfo, 0 < s.timeWheel.copies x

/-- There is nobody to wait for. -/
theorem prompt_init : Prompt init := by
  refine ⟨fun slot hmem => ?_, nofun⟩
  rw [TimeWheel.ages_new (by decide) slot hmem]
  exact List.nodup_nil

/-- A pointer that is not in the current slot may be pushed there without being in it twice. -/
theorem prompt_push (h : ∀ slot ∈ s.timeWheel.ages, slot.Nodup)
    (hheld : ∀ y ∈ values s.heartBeatInfo, y = x ∨ 0 < s.timeWheel.copies y)
    (hx : x ∉ s.timeWheel.current) : Prompt (s.push x) := by
  obtain ⟨older, hages, hpush⟩ := s.timeWheel.ages_push x
  refine ⟨fun slot hslot => ?_, fun y hy => ?_⟩
  · rw [show (s.push x).timeWheel = s.timeWheel.push x from rfl, hpush] at hslot
    rw [hages] at h
    rcases List.mem_cons.mp hslot with rfl | hslot
    · exact (h _ List.mem_cons_self).append (List.nodup_singleton x)
        (List.disjoint_singleton.mpr hx)
    · exact h slot (List.mem_cons_of_mem _ hslot)
  · show 0 < (s.timeWheel.push x).copies y
    rw [TimeWheel.copies_push]
    rcases hheld y hy with rfl | hpos
    · rw [if_pos rfl]
      omega
    · omega

/-- After the loop over `rest`, only pointers that are still in the wheel are in the map. -/
theorem held_foldl {slot rest : List WorkerHeartBeatInfo} (hs : Sound s) (hslot : slot.Nodup)
    (hsub : ∀ i ∈ rest, i ∈ slot)
    (h : ∀ x ∈ values s.heartBeatInfo, 0 < s.timeWheel.copies x ∨ x ∈ rest) :
    ∀ x ∈ values (rest.foldl (kick slot) s).heartBeatInfo,
      0 < (rest.foldl (kick slot) s).timeWheel.copies x := by
  induction rest generalizing s with
  | nil =>
    intro x hx
    exact (h x hx).resolve_right List.not_mem_nil
  | cons i rest ih =>
    rw [List.foldl_cons]
    refine ih (sound_kick hs i) (fun j hj => hsub j (List.mem_cons_of_mem _ hj)) fun x hx => ?_
    rw [kick] at hx ⊢
    split at hx
    · obtain ⟨hx, hne⟩ := hs.mem_values_erase.mp hx
      rw [if_pos ‹_›]
      refine (h x hx).imp_right fun hmem => (List.mem_cons.mp hmem).resolve_left ?_
      rintro rfl
      exact hne rfl
    · rename_i hcount
      rw [if_neg hcount]
      rcases h x hx with hpos | hmem
      · exact .inl hpos
      · rcases List.mem_cons.mp hmem with rfl | hmem
        · -- one copy in the slot and one in the map would be two
          refine .inl (Nat.pos_of_ne_zero fun hzero => hcount ?_)
          rw [use_count, List.count_eq_one_of_mem hslot (hsub x List.mem_cons_self), hzero,
            hs.count_values hx]
        · exact .inr hmem

/-- The pointer of a new connection is in no slot, as its number is larger than all before. -/
theorem prompt_accept (hs : Sound s) (h : Prompt s) (fd : Nat) :
    Prompt (s.acceptWorkerConnection fd) := by
  let t : HeartBeats :=
    { s with heartBeatInfo := s.heartBeatInfo.insert fd ⟨s.accepted, fd⟩
             accepted := s.accepted + 1 }
  have hfresh : (⟨s.accepted, fd⟩ : WorkerHeartBeatInfo) ∉ s.timeWheel.current := by
    intro hmem
    obtain ⟨older, hages, -⟩ := s.timeWheel.ages_push ⟨s.accepted, fd⟩
    obtain ⟨k, hk, -⟩ := (hs.aged 0 _ (by rw [hages]; rfl) _).mp hmem
    exact lt_irrefl _ (hs.pushed_lt _ k hk).1
  have hprompt : Prompt (t.push ⟨s.accepted, fd⟩) := by
    refine prompt_push h.nodup (fun y hy => ?_) hfresh
    obtain ⟨k, hk⟩ := mem_values.mp hy
    rcases lookup_insert_eq_some.mp hk with ⟨-, rfl⟩ | ⟨-, hk⟩
    · exact .inl rfl
    · exact .inr (h.held y (mem_values.mpr ⟨k, hk⟩))
  exact ⟨hprompt.nodup, hprompt.held⟩

/-- The loop of `OnWheelTick` leaves the wheel alone. -/
theorem timeWheel_foldl {slot rest : List WorkerHeartBeatInfo} :
    (rest.foldl (kick slot) s).timeWheel = s.timeWheel := by
  refine List.foldlRecOn (motive := fun t : HeartBeats => t.timeWheel = s.timeWheel) _ _ rfl
    fun t ht i _ => ?_
  rw [kick]
  split
  · exact ht
  · exact ht

/-- **A tick keeps the slots free of doubles.**  A worker whose last copy was in the slot that is
    taken away is kicked out, and the others have a copy in another slot. -/
theorem prompt_tick (hs : Sound s) (h : Prompt s) : Prompt s.onWheelTick := by
  obtain ⟨older, hages, htick⟩ := s.timeWheel.ages_tick
  have hslot : s.timeWheel.tick.1.Nodup := h.nodup _ (by simp [hages])
  refine ⟨fun slot hmem => ?_, ?_⟩
  · rw [onWheelTick, timeWheel_foldl, htick] at hmem
    rcases List.mem_cons.mp hmem with rfl | hmem
    · exact List.nodup_nil
    · exact h.nodup slot (by simp [hages, hmem])
  · refine held_foldl (sound_ticked hs) hslot (fun _ hi => hi) fun x hx => ?_
    have hpos := h.held x hx
    rw [TimeWheel.copies_tick] at hpos
    by_cases hmem : x ∈ s.timeWheel.tick.1
    · exact .inr hmem
    · rw [List.count_eq_zero.mpr hmem, Nat.zero_add] at hpos
      exact .inl hpos

/-- A move keeps this, if no pointer is pushed twice between two ticks. -/
theorem prompt_move (hs : Sound s) (h : Prompt s) {a : Act} (honce : OncePerTick s a)
    (hm : Move s a s') : Prompt s' := by
  cases hm with
  | accepted fd hfree => exact prompt_accept hs h fd
  | pinged fd x hx => exact prompt_push h.nodup (fun y hy => .inr (h.held y hy)) (honce x hx)
  | unknown fd => exact h
  | closed fd => exact ⟨h.nodup, h.held⟩
  | ticked => exact prompt_tick hs h

/-- **A silent worker is always kicked out.**  In every run where a ping is handled only while the
    current slot does not hold its pointer yet, a connection without a push in the last ten ticks
    has neither a poll entry nor an entry in `heartBeatInfo`. -/
theorem silent_worker_kicked (acts : List Act) (s : HeartBeats)
    (hrun : exec step init acts = some s) (honce : Along step OncePerTick init acts) :
    ∀ x, (∀ k, (x, k) ∈ s.pushed → k + 10 ≤ s.ticks) →
      (∀ fd, s.poll.entry_map.lookup fd ≠ some x) ∧ ∀ fd, s.heartBeatInfo.lookup fd ≠ some x := by
  have hinv : Sound s ∧ Prompt s :=
    exec_invariants_along (fun _ _ _ => sound_step)
      (fun _ _ _ hs hp hok hst => prompt_move hs hp hok (move_of_step hs hst))
      sound_init prompt_init honce hrun
  intro x hx
  have hgone : ∀ fd, s.heartBeatInfo.lookup fd ≠ some x := by
    intro fd hfd
    obtain ⟨k, hk, hticks⟩ := hinv.1.copies_pos.mp (hinv.2.held x (mem_values.mpr ⟨fd, hfd⟩))
    have hle := hx k hk
    omega
  exact ⟨fun fd hfd => hgone fd (hinv.1.entry fd x hfd), hgone⟩

/-- A worker connects, pings once in the next tick and is silent from then on. -/
def fading : List Act := [.accept 5, .tick, .ping 5] ++ List.replicate 10 .tick

/-- A worker that is silent for ten ticks is gone after them. -/
theorem silent_worker_kicked_fading : ∃ s, exec step init fading = some s ∧
    (⟨0, 5⟩, 1) ∈ s.pushed ∧ (∀ fd, s.poll.entry_map.lookup fd ≠ some ⟨0, 5⟩) ∧
      ∀ fd, s.heartBeatInfo.lookup fd ≠ some ⟨0, 5⟩ := by
  obtain ⟨s, hrun, htest⟩ := exists_of_exec_any
    (show (exec step init fading).any (fun s => (⟨0, 5⟩, 1) ∈ s.pushed ∧
      ∀ p ∈ s.pushed, p.2 + 10 ≤ s.ticks) = true by decide +kernel)
  obtain ⟨hpushed, hsilent⟩ := of_decide_eq_true htest
  exact ⟨s, hrun, hpushed, silent_worker_kicked fading s hrun (by decide +kernel) ⟨0, 5⟩
    fun k hk => hsilent _ hk⟩

/-- A worker connects and pings before the first tick, and is silent from then on. -/
def quick : List Act := [.accept 5, .ping 5] ++ List.replicate 10 .tick

/-- The tenth tick finds three copies of the pointer and lets the worker stay; no copy is left in
    the wheel, so it stays for ever. -/
theorem silent_worker_stays : ∃ s, exec step init quick = some s ∧ s.ticks = 10 ∧
    (∀ k, (⟨0, 5⟩, k) ∈ s.pushed → k + 10 ≤ s.ticks) ∧
      s.poll.entry_map.lookup 5 = some ⟨0, 5⟩ ∧ s.heartBeatInfo.lookup 5 = some ⟨0, 5⟩ ∧
      s.timeWheel.copies ⟨0, 5⟩ = 0 := by
  obtain ⟨s, hrun, htest⟩ := exists_of_exec_any
    (show (exec step init quick).any (fun s => s.ticks = 10 ∧
      (∀ p ∈ s.pushed, p.2 + 10 ≤ s.ticks) ∧ s.poll.entry_map.lookup 5 = some ⟨0, 5⟩ ∧
      s.heartBeatInfo.lookup 5 = some ⟨0, 5⟩ ∧ s.timeWheel.copies ⟨0, 5⟩ = 0) = true by
        decide +kernel)
  obtain ⟨hticks, hsilent, hrest⟩ := of_decide_eq_true htest
  exact ⟨s, hrun, hticks, fun k hk => hsilent _ hk, hrest⟩

end HeartBeats

end CPlayground.Monitor
