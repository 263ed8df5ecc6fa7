import CPlayground.Relay.Notifier

namespace CPlayground.Relay

open CPlayground.Trace CPlayground.Table

/-!
# `Notifier`: registering a key again

`Register` ignores a key that is in `subscriber_`.  The entry of a key holds no reference to its
consumer, and it stays when the consumer is gone, until `Run` takes a message and removes the
entries whose consumers are gone.

* `Notifier.Alive` — a shared pointer to the consumer is left.
* `Recorded` — a notifier with its registrations, and with the consumers that `Run` has found gone.
* `reregistration` — `Register` takes effect for a key without a live consumer, exactly if `Run` has
  found all its consumers gone.
-/

namespace Notifier

/-- The consumers in the vector `tasks` of `Run`, or moved from there to `valid`. -/
def swapped (s : Notifier) : List Consumer :=
  match s.run with
  | .publishing p _ _ => p.swapped
  | _                 => []

/-- There is a shared pointer to the consumer. -/
def Alive (s : Notifier) (c : Consumer) : Prop :=
  (∃ l ∈ values s.manager, c ∈ l) ∨ c ∈ s.swapped

instance (s : Notifier) (c : Consumer) : Decidable (s.Alive c) :=
  inferInstanceAs (Decidable (_ ∨ _))

end Notifier

open Notifier (Act Alive held)

/-- A notifier, the keys and consumers of the registrations that were not ignored, and the consumers
    that were gone when `Run` took a message. -/
structure Recorded where
  notifier : Notifier := {}
  registrations : List (Int × Consumer) := []
  purged : List Consumer := []

namespace Recorded

/-- What a step adds to the registrations. -/
def registration (s : Notifier) : Act → List (Int × Consumer)
  | .register key _ => if key ∈ s.subscriber then [] else [(key, s.fresh)]
  | _               => []

/-- What a step adds to the purged consumers. -/
def gone (s : Recorded) : Act → List Consumer
  | .swapOut => (s.registrations.map Prod.snd).filter fun c => ¬ s.notifier.Alive c
  | _        => []

/-- A step of the notifier. -/
def step (s : Recorded) (a : Act) : Option Recorded :=
  (s.notifier.step a).map fun n =>
    { notifier := n
      registrations := s.registrations ++ registration s.notifier a
      purged := s.purged ++ s.gone a }

variable {s s' : Recorded} {acts : List Act} {key : Int} {c : Consumer} {topics : List Topic}

/-- Recording leaves the notifier as it is: every run of it is recorded. -/
theorem map_notifier_exec (acts : List Act) :
    (exec step {} acts).map notifier = exec Notifier.step {} acts := by
  have hstep : ∀ (s : Recorded) a, (s.step a).map notifier = s.notifier.step a := by
    intro s a
    cases h : s.notifier.step a <;> simp [step, h]
  exact exec_map hstep {} acts

/-- The record of the registrations does not change what the notifier does. -/
theorem exec_notifier (h : exec step {} acts = some s) :
    exec Notifier.step {} acts = some s.notifier := by
  rw [← map_notifier_exec, h]
  rfl

/-- Where the keys are: a key is in the table with the consumers that were registered for it and
    that `Run` has not found gone. -/
structure Tracked (s : Recorded) : Prop where
  subscriber : ∀ key c, s.notifier.subscriber.lookup key = some c ↔
    (key, c) ∈ s.registrations ∧ c ∉ s.purged
  fresh : ∀ r ∈ s.registrations, r.2 < s.notifier.fresh
  purged : ∀ c ∈ s.purged, c < s.notifier.fresh
  registered : ∀ r ∈ s.notifier.registered, r.2 < s.notifier.fresh

/-- Nobody was registered. -/
theorem tracked_init : Tracked {} where
  subscriber := by simp
  fresh := by simp
  purged := by simp
  registered := by simp

/-- A key is out of the table exactly if `Run` has found all its consumers gone. -/
theorem Tracked.not_mem_subscriber (hs : Tracked s) :
    key ∉ s.notifier.subscriber ↔ ∀ c, (key, c) ∈ s.registrations → c ∈ s.purged := by
  rw [← AList.lookup_eq_none, Option.eq_none_iff_forall_ne_some]
  refine forall_congr' fun c => ?_
  rw [Ne, hs.subscriber, not_and, not_not]

/-- A registration that takes effect is recorded with its consumer, which is a new one. -/
theorem tracked_register (hs : Tracked s) (hnew : key ∉ s.notifier.subscriber) :
    Tracked { s with
      notifier := s.notifier.register key topics
      registrations := s.registrations ++ [(key, s.notifier.fresh)] } := by
  have hkey := hs.not_mem_subscriber.mp hnew
  unfold Notifier.register
  simp only [if_neg hnew]
  refine ⟨fun k c => ?_, ?_, ?_, ?_⟩
  · simp only [lookup_insert_eq_some, hs.subscriber, List.mem_append, List.mem_singleton,
      Prod.mk.injEq]
    constructor
    · rintro (⟨rfl, rfl⟩ | ⟨-, hmem, hpurged⟩)
      · exact ⟨.inr ⟨rfl, rfl⟩, fun h => lt_irrefl _ (hs.purged _ h)⟩
      · exact ⟨.inl hmem, hpurged⟩
    · rintro ⟨hmem | ⟨rfl, rfl⟩, hpurged⟩
      · refine .inr ⟨?_, hmem, hpurged⟩
        rintro rfl
        exact hpurged (hkey c hmem)
      · exact .inl ⟨rfl, rfl⟩
  · simp only [List.forall_mem_append, List.forall_mem_singleton]
    exact ⟨fun r hr => Nat.lt_succ_of_lt (hs.fresh r hr), Nat.lt_succ_self _⟩
  · exact fun c hc => Nat.lt_succ_of_lt (hs.purged c hc)
  · simp only [List.forall_mem_append, List.forall_mem_map]
    exact ⟨fun r hr => Nat.lt_succ_of_lt (hs.registered r hr), fun _ _ => Nat.lt_succ_self _⟩

/-- The keys that `Run` removes are those of consumers that are gone. -/
theorem mem_invalid {n : Notifier} (hrun : n.swapped = []) :
    key ∈ n.invalid ↔ ∃ c, n.subscriber.lookup key = some c ∧ ¬ n.Alive c := by
  have halive : ∀ c, ¬ n.Alive c ↔ ∀ l ∈ values n.manager, c ∉ l := by
    intro c
    simp [Alive, hrun]
  simp only [Notifier.invalid, List.mem_map, List.mem_filter, List.all_eq_true, decide_eq_true_eq,
    halive, ← mem_pairs, pairs]
  constructor
  · rintro ⟨e, ⟨hmem, hdead⟩, rfl⟩
    exact ⟨e.2, ⟨e, hmem, rfl⟩, hdead⟩
  · rintro ⟨c, ⟨e, hmem, heq⟩, hdead⟩
    cases heq
    exact ⟨e, ⟨hmem, hdead⟩, rfl⟩

/-- `Run` removes the keys whose consumers are gone, and records them; the keys of the others
    stay. -/
theorem tracked_swapOut (hs : Tracked s) {output : Codec.Output}
    (hrun : s.notifier.run = .decoded output) :
    Tracked { s with
      notifier := s.notifier.swapOut output, purged := s.purged ++ s.gone .swapOut } := by
  -- nobody is swapped out yet, so that a consumer is alive exactly if it is in some list
  have hswapped : s.notifier.swapped = [] := by simp [Notifier.swapped, hrun]
  have hfields : (s.notifier.swapOut output).fresh = s.notifier.fresh ∧
      (s.notifier.swapOut output).registered = s.notifier.registered ∧
      (s.notifier.swapOut output).subscriber
        = s.notifier.invalid.foldl (fun m k => m.erase k) s.notifier.subscriber := by
    unfold Notifier.swapOut
    dsimp only
    split_ifs <;> exact ⟨rfl, rfl, rfl⟩
  obtain ⟨hfresh, hregistered, hsubscriber⟩ := hfields
  have hgone : ∀ c, c ∈ s.gone .swapOut ↔
      (∃ key, (key, c) ∈ s.registrations) ∧ ¬ s.notifier.Alive c := by
    intro c
    simp [gone]
  refine ⟨fun key c => ?_, hfresh ▸ hs.fresh, ?_, ?_⟩
  · show (s.notifier.swapOut output).subscriber.lookup key = some c ↔ _
    -- the key is kept exactly if its consumer is still in some list
    rw [hsubscriber, lookup_foldl_erase_eq_some, mem_invalid hswapped, List.mem_append, not_or,
      hgone]
    constructor
    · rintro ⟨hvalid, hlookup⟩
      obtain ⟨hmem, hpurged⟩ := (hs.subscriber key c).mp hlookup
      exact ⟨hmem, hpurged, fun h => hvalid ⟨c, hlookup, h.2⟩⟩
    · rintro ⟨hmem, hpurged, hkept⟩
      have hlookup := (hs.subscriber key c).mpr ⟨hmem, hpurged⟩
      refine ⟨?_, hlookup⟩
      rintro ⟨c', hlookup', hdead⟩
      obtain rfl : c = c' := Option.some.inj (hlookup.symm.trans hlookup')
      exact hkept ⟨⟨key, hmem⟩, hdead⟩
  · rw [hfresh]
    simp only [List.forall_mem_append]
    refine ⟨hs.purged, fun c hc => ?_⟩
    obtain ⟨⟨key, hmem⟩, -⟩ := (hgone c).mp hc
    exact hs.fresh _ hmem
  · rw [hregistered, hfresh]
    exact hs.registered

/-- A step that is about other things: the keys, the counter and the registrations are as before. -/
theorem Tracked.frame (hs : Tracked s) (hregistrations : s'.registrations = s.registrations)
    (hpurged : s'.purged = s.purged)
    (hnotifier : (s'.notifier.subscriber, s'.notifier.fresh, s'.notifier.registered)
      = (s.notifier.subscriber, s.notifier.fresh, s.notifier.registered)) : Tracked s' := by
  simp only [Prod.mk.injEq] at hnotifier
  obtain ⟨hsubscriber, hfresh, hregistered⟩ := hnotifier
  refine ⟨?_, ?_, ?_, ?_⟩
  · rw [hsubscriber, hregistrations, hpurged]
    exact hs.subscriber
  · rw [hregistrations, hfresh]
    exact hs.fresh
  · rw [hpurged, hfresh]
    exact hs.purged
  · rw [hregistered, hfresh]
    exact hs.registered

/-- **One step keeps the records true**: only `Register` adds to them, and only `Run` purges, when
    it swaps the consumers out. -/
theorem tracked_step (a : Act) (hs : Tracked s) (h : step s a = some s') : Tracked s' := by
  obtain ⟨n, hn, rfl⟩ := Option.map_eq_some_iff.mp h
  cases a with
  -- a key that is known already is not registered again
  | register key topics =>
    cases hn
    simp only [registration, gone, List.append_nil]
    split_ifs with hkey
    · rw [Notifier.register, if_pos hkey, List.append_nil]
      exact hs
    · exact tracked_register hs hkey
  | swapOut =>
    simp only [Notifier.step] at hn
    split at hn <;> cases hn
    simp only [registration, List.append_nil]
    exact tracked_swapOut hs ‹_›
  | message x =>
    simp only [Notifier.step] at hn
    split at hn <;> cases hn
    exact hs.frame (List.append_nil _) (List.append_nil _) rfl
  | filter | forward | read | pushBack =>
    simp only [Notifier.step] at hn
    split at hn <;> cases hn
    exact hs.frame (List.append_nil _) (List.append_nil _) rfl
  | call ok =>
    simp only [Notifier.step] at hn
    split at hn
    · split_ifs at hn <;> cases hn <;> exact hs.frame (List.append_nil _) (List.append_nil _) rfl
    · cases hn

/-! ### Registering again -/

/-- `Register` puts its consumer into the list of every topic. -/
def TakesEffect (n : Notifier) (key : Int) (topics : List Topic) : Prop :=
  ∀ topic ∈ topics, n.fresh ∈ held (n.register key topics).manager topic

/-- The consumer that `Register` makes is a new one, so that it is in a list only if the
    registration was made. -/
theorem takesEffect_iff (h : exec step {} acts = some s) :
    TakesEffect s.notifier key topics ↔ topics = [] ∨ key ∉ s.notifier.subscriber := by
  have hs : Tracked s := exec_invariant (fun _ a _ => tracked_step a) tracked_init h
  have hsound := Notifier.sound_of_exec (exec_notifier h)
  have hnew : ∀ topic, s.notifier.fresh ∉ held s.notifier.manager topic := by
    intro topic hmem
    have hregistered : s.notifier.fresh ∈ Notifier.entriesOf s.notifier.registered topic := by
      rw [← Multiset.mem_coe, ← hsound.subscriptions topic]
      exact Multiset.mem_add.mpr (.inl (Multiset.mem_add.mpr (.inl hmem)))
    exact lt_irrefl _ (hs.registered _ (Notifier.mem_entriesOf.mp hregistered))
  unfold TakesEffect
  by_cases hkey : key ∈ s.notifier.subscriber
  · have hignored : s.notifier.register key topics = s.notifier := if_pos hkey
    simp only [hignored, hnew, hkey, not_true_eq_false, or_false, imp_false]
    exact List.eq_nil_iff_forall_not_mem.symm
  · have hmanager : (s.notifier.register key topics).manager
        = Notifier.subscribe s.notifier.manager topics s.notifier.fresh := by
      rw [Notifier.register, if_neg hkey]
    refine iff_of_true (fun topic hmem => ?_) (.inr hkey)
    rw [hmanager, Notifier.held_subscribe, List.mem_append, List.mem_replicate]
    exact .inr ⟨(List.count_pos_iff.mpr hmem).ne', rfl⟩

/-- **Registering again.**  A registration under a key without a live consumer takes effect exactly
    if it has no topics, or `Run` has taken a message when every consumer of the key was gone. -/
theorem reregistration (h : exec step {} acts = some s) :
    ((∀ c, (key, c) ∈ s.registrations → ¬ s.notifier.Alive c) → TakesEffect s.notifier key topics) ↔
      topics = [] ∨ (∃ c, (key, c) ∈ s.registrations ∧ s.notifier.Alive c) ∨
        ∀ c, (key, c) ∈ s.registrations → c ∈ s.purged := by
  have hs : Tracked s := exec_invariant (fun _ a _ => tracked_step a) tracked_init h
  rw [takesEffect_iff h, hs.not_mem_subscriber]
  constructor
  · intro heffect
    by_cases halive : ∃ c, (key, c) ∈ s.registrations ∧ s.notifier.Alive c
    · exact .inr (.inl halive)
    · push Not at halive
      exact (heffect halive).imp_right .inr
  · rintro (hnil | ⟨c, hmem, halive⟩ | hpurged) hdead
    · exact .inl hnil
    · exact absurd halive (hdead c hmem)
    · exact .inr hpurged

/-- A consumer returns false for its message. -/
def refusal : List Act :=
  [.register 7 [['0']], .register 8 [['1']], .message ⟨0, 0⟩, .filter, .forward, .read, .swapOut,
    .call false, .pushBack]

/-- A message for the other consumer, taken up to the swap. -/
def nextMessage : List Act := [.message ⟨1, 0x1000000000000⟩, .filter, .forward, .read, .swapOut]

/-- The next message for anybody makes way for the key. -/
theorem reregistration_purged : ∃ s, exec step {} (refusal ++ nextMessage) = some s ∧
    TakesEffect s.notifier 7 [['0']] := by
  obtain ⟨s, hs, hp⟩ := exists_of_exec_any (p := fun s : Recorded =>
    decide (s.registrations = [(7, 0), (8, 1)] ∧ s.purged = [0] ∧ ¬ s.notifier.Alive 0))
    (show (exec step {} (refusal ++ nextMessage)).any _ = true by decide +kernel)
  obtain ⟨hregistrations, hpurged, hdead⟩ := of_decide_eq_true hp
  have hkey : ∀ c, (7, c) ∈ s.registrations → c = 0 := by simp [hregistrations]
  refine ⟨s, hs, (reregistration hs).mpr (.inr (.inr fun c hc => ?_)) fun c hc => ?_⟩
  · simp [hkey c hc, hpurged]
  · exact hkey c hc ▸ hdead

/-- **A lost registration.**  The consumer is gone, but its key is still in the table. -/
theorem reregistration_ignored : ∃ s, exec step {} refusal = some s ∧
    (∀ c, (7, c) ∈ s.registrations → ¬ s.notifier.Alive c) ∧
    held (s.notifier.register 7 [['0']]).manager ['0'] = [] := by
  obtain ⟨s, hs, hp⟩ := exists_of_exec_any (p := fun s : Recorded =>
    decide (s.registrations = [(7, 0), (8, 1)] ∧ ¬ s.notifier.Alive 0 ∧
      held (s.notifier.register 7 [['0']]).manager ['0'] = []))
    (show (exec step {} refusal).any _ = true by decide +kernel)
  obtain ⟨hregistrations, hdead, hheld⟩ := of_decide_eq_true hp
  have hkey : ∀ c, (7, c) ∈ s.registrations → c = 0 := by simp [hregistrations]
  exact ⟨s, hs, fun c hc => hkey c hc ▸ hdead, hheld⟩

end Recorded

end CPlayground.Relay
