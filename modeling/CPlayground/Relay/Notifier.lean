import CPlayground.Lib.Table
import CPlayground.Lib.Trace
import CPlayground.Relay.Codec
import Mathlib.Algebra.Order.Group.Multiset
import Mathlib.Tactic.Abel

namespace CPlayground.Relay

open CPlayground.Trace CPlayground.Table
open Codec (Data Output retrieveTopic decode)

/-!
# `Notifier`: publishing to the subscribers of a topic

`Register` adds a consumer to the lists of its topics.  `Run` takes a message from the pipe of the
relay, swaps the list of its topic out under the lock, calls the consumers without the lock, and
appends those that have returned true to the list again.  The relay thread asks the filter before it
forwards a message: is the list of the topic empty?

A consumer is named by a number.  The lock makes `Register`, the swap and the push-back atomic; the
filter takes no lock, but it is taken as one step here.

* `Notifier.Sound` — where the subscriptions of each topic are.
* `notifier_subscriptions` — no subscription is lost or duplicated, and each message is passed once
  to every consumer that was swapped out for it.
* `relay_filter` — the filter drops a message although a consumer is subscribed, exactly if the list
  is empty while such a consumer is swapped out.
-/

/-- A topic, and the number of a consumer. -/
abbrev Topic := List Char
/-- A consumer, by a number that is not used again. -/
abbrev Consumer := Nat

/-- `TopicManager::table_`. -/
abbrev TopicManager := AList fun _ : Topic => List Consumer

/-- A message that `Run` has taken: the consumers in the list at the swap, and those that were
    called. -/
structure Publication where
  output : Output
  swapped : List Consumer
  called : List Consumer
  deriving DecidableEq

/-- Where `Run` is. -/
inductive RunPc where
  | polling
  | decoded (output : Output)
  | publishing (p : Publication) (tasks valid : List Consumer)

/-- Where `handle_message` is. -/
inductive RelayPc where
  | idle
  | decrypted (x : Data)
  | accepted (x : Data)
  deriving DecidableEq

/-- The notifier and the relay.  The last four fields record the subscriptions, the calls that have
    returned false, and the messages that `Run` has taken and is done with. -/
structure Notifier where
  subscriber : AList fun _ : Int => Consumer := ∅
  manager : TopicManager := ∅
  fresh : Consumer := 0
  run : RunPc := .polling
  relay : RelayPc := .idle
  pipe : List Data := []
  registered : List (Topic × Consumer) := []
  refused : List (Topic × Consumer) := []
  taken : List Output := []
  published : List Publication := []

namespace Notifier

/-- The consumers in `manager_[topic]`. -/
def held (manager : TopicManager) (topic : Topic) : List Consumer := (manager.lookup topic).getD []

/-- `TopicManager::subscribe`. -/
def subscribe (manager : TopicManager) (topics : List Topic) (consumer : Consumer) : TopicManager :=
  topics.foldl (fun table topic => table.insert topic (held table topic ++ [consumer])) manager

/-- `Notifier::Register`. -/
def register (s : Notifier) (key : Int) (topics : List Topic) : Notifier :=
  if key ∈ s.subscriber then s
  else
    { s with
      manager := subscribe s.manager topics s.fresh
      subscriber := s.subscriber.insert key s.fresh
      fresh := s.fresh + 1
      registered := s.registered ++ topics.map (·, s.fresh) }

/-- The keys of consumers that are in no list any more. -/
def invalid (s : Notifier) : List Int :=
  (s.subscriber.entries.filter fun e => (values s.manager).all fun l => e.2 ∉ l).map Sigma.fst

/-- The first locked section of `Run`. -/
def swapOut (s : Notifier) (output : Output) : Notifier :=
  let s := { s with subscriber := s.invalid.foldl (fun m k => m.erase k) s.subscriber }
  let tasks := held s.manager output.topic
  if tasks = [] then
    { s with
      manager := insertNew s.manager output.topic []
      run := .polling
      published := s.published ++ [⟨output, [], []⟩] }
  else
    { s with
      manager := s.manager.insert output.topic []
      run := .publishing ⟨output, tasks, []⟩ tasks [] }

/-- What `Run` does when all consumers are called. -/
def pushBack (s : Notifier) (p : Publication) (valid : List Consumer) : Notifier :=
  { s with
    manager := if valid = [] then s.manager
      else s.manager.insert p.output.topic (held s.manager p.output.topic ++ valid)
    run := .polling
    published := s.published ++ [p] }

/-- A step of a run: a call of `Register`, a step of `handle_message` with its filter, or a step of
    `Run`, which calls one consumer at a time. -/
inductive Act where
  | register (key : Int) (topics : List Topic)
  | message (x : Data)   -- `handle_message`, up to where it has decrypted the value
  | filter               -- the call of `filter_`
  | forward              -- the rest of `handle_message`
  | read                 -- `Run` reads from the pipe
  | swapOut
  | call (ok : Bool)     -- the next consumer, and what it returns
  | pushBack

/-- The filter of the constructor: `!manager_[topic].empty()`. -/
def accepts (s : Notifier) (topic : Topic) : Bool := !(held s.manager topic).isEmpty

/-- One step of a run; `none` where `Run` or `handle_message` is at another point. -/
def step (s : Notifier) : Act → Option Notifier
  | .register key topics => some (s.register key topics)
  | .message x =>
    match s.relay with
    | .idle => some { s with relay := .decrypted x }
    | _     => none
  | .filter =>
    match s.relay with
    | .decrypted x => some { s with
        manager := insertNew s.manager (retrieveTopic x.b) []
        relay := if s.accepts (retrieveTopic x.b) then .accepted x else .idle }
    | _ => none
  | .forward =>
    match s.relay with
    | .accepted x => some { s with
        pipe := if s.pipe.length * Codec.kDataSize < 128 then s.pipe ++ [x] else s.pipe
        relay := .idle }
    | _ => none
  | .read =>
    match s.run, s.pipe with
    | .polling, x :: pipe => some { s with
        pipe := pipe, run := .decoded (decode x), taken := s.taken ++ [decode x] }
    | _, _ => none
  | .swapOut =>
    match s.run with
    | .decoded output => some (s.swapOut output)
    | _               => none
  | .call ok =>
    match s.run with
    | .publishing p (c :: tasks) valid =>
      let p := { p with called := p.called ++ [c] }
      if ok then some { s with run := .publishing p tasks (valid ++ [c]) }
      else some { s with
        run := .publishing p tasks valid, refused := s.refused ++ [(p.output.topic, c)] }
    | _ => none
  | .pushBack =>
    match s.run with
    | .publishing p [] valid => some (s.pushBack p valid)
    | _                      => none

/-! ### Where the subscriptions are -/

/-- The consumers of a topic that are swapped out. -/
def inFlight (s : Notifier) (topic : Topic) : List Consumer :=
  match s.run with
  | .publishing p tasks valid => if p.output.topic = topic then valid ++ tasks else []
  | _                         => []

/-- The entries of a record for a topic. -/
def entriesOf (record : List (Topic × Consumer)) (topic : Topic) : List Consumer :=
  (record.filter (·.1 = topic)).map Prod.snd

/-- The messages that `Run` has taken and is not done with. -/
def current (s : Notifier) : List Output :=
  match s.run with
  | .polling          => []
  | .decoded output   => [output]
  | .publishing p _ _ => [p.output]

/-- What holds in every run: every registration is in the list of its topic, swapped out, or
    refused, exactly once; the messages are published in the order in which they were taken; and a
    published one was passed to all consumers that were swapped out for it. -/
structure Sound (s : Notifier) : Prop where
  subscriptions : ∀ topic,
    (held s.manager topic + s.inFlight topic + entriesOf s.refused topic : Multiset Consumer)
      = entriesOf s.registered topic
  taken : s.taken = s.published.map Publication.output ++ s.current
  published : ∀ p ∈ s.published, p.called = p.swapped
  publishing : ∀ p tasks valid, s.run = .publishing p tasks valid → p.called ++ tasks = p.swapped

/-! ### The lists of the topics -/

variable {s s' : Notifier} {manager : TopicManager} {topic topic' : Topic} {c : Consumer}

/-- The list of a topic after it was set. -/
@[simp] theorem held_insert (l : List Consumer) :
    held (manager.insert topic l) topic' = if topic' = topic then l else held manager topic' := by
  unfold held
  split_ifs with h
  · subst h
    rw [AList.lookup_insert]
    rfl
  · rw [AList.lookup_insert_ne h]

/-- `operator[]` adds an empty list at most. -/
@[simp] theorem held_insertNew :
    held (insertNew manager topic []) topic' = held manager topic' := by
  unfold insertNew
  split_ifs with h
  · rfl
  · rw [held_insert]
    split_ifs with heq
    · subst heq
      rw [held, AList.lookup_eq_none.mpr h]
      rfl
    · rfl

/-- `Register` adds the consumer once for each time that the topic is given, behind the consumers
    that are there. -/
theorem held_subscribe (topics : List Topic) :
    held (subscribe manager topics c) topic
      = held manager topic ++ List.replicate (topics.count topic) c := by
  unfold subscribe
  induction topics generalizing manager with
  | nil => simp
  | cons t topics ih =>
    rw [List.foldl_cons, ih, held_insert, List.count_cons]
    split_ifs with h h' h'
    · subst h
      rw [List.append_assoc, Nat.add_comm, List.replicate_add]
      rfl
    · subst h
      simp at h'
    · rw [beq_iff_eq] at h'
      exact absurd h'.symm h
    · rfl

/-- The record of a topic, in two parts. -/
theorem entriesOf_append (l l' : List (Topic × Consumer)) :
    entriesOf (l ++ l') topic = entriesOf l topic ++ entriesOf l' topic := by
  rw [entriesOf, List.filter_append, List.map_append]
  rfl

/-- A consumer that is registered for a list of topics. -/
theorem entriesOf_map (topics : List Topic) :
    entriesOf (topics.map (·, c)) topic = List.replicate (topics.count topic) c := by
  induction topics with
  | nil => rfl
  | cons t topics ih =>
    rw [List.map_cons, ← List.singleton_append, entriesOf_append, ih, List.count_cons]
    by_cases h : t = topic
    · subst h
      rw [if_pos BEq.rfl, Nat.add_comm, List.replicate_add]
      simp [entriesOf]
    · rw [if_neg (by simpa using h)]
      simp [entriesOf, h]

/-! ### The steps -/

/-- Nobody is subscribed. -/
theorem sound_init : Sound {} where
  subscriptions := fun _ => rfl
  taken := rfl
  published := fun p hp => absurd hp List.not_mem_nil
  publishing := fun p tasks valid h => by cases h

/-- The lists and the record grow by the same entries. -/
theorem sound_register (hs : Sound s) (key : Int) (topics : List Topic) :
    Sound (s.register key topics) := by
  unfold register
  split_ifs
  · exact hs
  · refine ⟨fun topic => ?_, hs.taken, hs.published, hs.publishing⟩
    have hsub := hs.subscriptions topic
    simp only [held_subscribe, entriesOf_append, entriesOf_map, ← Multiset.coe_add]
    rw [← hsub]
    show _ + (s.inFlight topic : Multiset Consumer) + _ = _
    abel

/-- **The swap** moves the list of the topic from the table to `tasks`.  Without consumers the
    message is done with at once. -/
theorem sound_swapOut (hs : Sound s) {output : Output} (hrun : s.run = .decoded output) :
    Sound (s.swapOut output) := by
  have hsub := hs.subscriptions
  have htaken := hs.taken
  simp only [inFlight, current, hrun] at hsub htaken
  unfold swapOut
  dsimp only
  split_ifs with hempty
  · -- nobody is to be called, and the message is done with
    refine ⟨fun topic => ?_, ?_, ?_, fun p tasks valid h => by cases h⟩
    · simpa [inFlight] using hsub topic
    · simp [current, htaken]
    · simp only [List.forall_mem_append, List.forall_mem_singleton]
      exact ⟨hs.published, trivial⟩
  · -- the list goes from the table to `tasks`
    refine ⟨fun topic => ?_, htaken, hs.published, fun p tasks valid h => ?_⟩
    · have htopic := hsub topic
      simp only [inFlight, held_insert, List.nil_append]
      by_cases heq : topic = output.topic
      · subst heq
        simpa using htopic
      · simpa [heq, Ne.symm heq] using htopic
    · cases h
      rfl

section Publishing

variable {p : Publication} {tasks valid : List Consumer}

/-- A consumer that returns true goes to `valid`. -/
theorem sound_keep (hs : Sound s) (hrun : s.run = .publishing p (c :: tasks) valid) :
    Sound { s with
      run := .publishing { p with called := p.called ++ [c] } tasks (valid ++ [c]) } := by
  have hsub := hs.subscriptions
  have htaken := hs.taken
  simp only [inFlight, current, hrun] at hsub htaken
  refine ⟨fun topic => ?_, htaken, hs.published, fun p' tasks' valid' h => ?_⟩
  · simpa [inFlight] using hsub topic
  · cases h
    rw [List.append_assoc]
    exact hs.publishing p (c :: tasks) valid hrun

/-- A consumer that returns false is in flight no longer, and is recorded in `refused`. -/
theorem sound_refuse (hs : Sound s) (hrun : s.run = .publishing p (c :: tasks) valid) :
    Sound { s with
      run := .publishing { p with called := p.called ++ [c] } tasks valid
      refused := s.refused ++ [(p.output.topic, c)] } := by
  have hsub := hs.subscriptions
  have htaken := hs.taken
  simp only [inFlight, current, hrun] at hsub htaken
  refine ⟨fun topic => ?_, htaken, hs.published, fun p' tasks' valid' h => ?_⟩
  · have htopic := hsub topic
    simp only [inFlight, entriesOf_append]
    by_cases heq : p.output.topic = topic
    · rw [if_pos heq, ← List.singleton_append, ← Multiset.coe_add, ← Multiset.coe_add] at htopic
      have hentry : entriesOf [(p.output.topic, c)] topic = [c] := by simp [entriesOf, heq]
      rw [if_pos heq, ← htopic, hentry, ← Multiset.coe_add, ← Multiset.coe_add]
      abel
    · simpa [heq, entriesOf] using htopic
  · cases h
    rw [List.append_assoc]
    exact hs.publishing p (c :: tasks) valid hrun

/-- The push-back appends the valid consumers behind those that were registered in the meantime. -/
theorem held_pushBack :
    held (s.pushBack p valid).manager topic
      = held s.manager topic ++ if p.output.topic = topic then valid else [] := by
  unfold pushBack
  dsimp only
  split_ifs with hvalid heq heq
  · rw [hvalid, List.append_nil]
  · rw [List.append_nil]
  · subst heq
    rw [held_insert, if_pos rfl]
  · rw [held_insert, if_neg (Ne.symm heq), List.append_nil]

/-- **The push-back** moves the valid consumers from `valid` to the list again. -/
theorem sound_pushBack (hs : Sound s) (hrun : s.run = .publishing p [] valid) :
    Sound (s.pushBack p valid) := by
  have hsub := hs.subscriptions
  have htaken := hs.taken
  have hcalled : p.called = p.swapped := by
    rw [← List.append_nil p.called]
    exact hs.publishing p [] valid hrun
  simp only [inFlight, current, hrun, List.append_nil] at hsub htaken
  refine ⟨fun topic => ?_, ?_, ?_, fun p tasks valid h => by cases h⟩
  · rw [held_pushBack, ← Multiset.coe_add]
    exact (congrArg (· + _) (add_zero _)).trans (hsub topic)
  · simp [pushBack, current, htaken]
  · simp only [pushBack, List.forall_mem_append, List.forall_mem_singleton]
    exact ⟨hs.published, hcalled⟩

end Publishing

/-- `Run` takes a message from the pipe. -/
theorem sound_read (hs : Sound s) (hrun : s.run = .polling) (x : Data) (pipe : List Data) :
    Sound { s with
      pipe := pipe, run := .decoded (decode x), taken := s.taken ++ [decode x] } := by
  have hsub := hs.subscriptions
  have htaken := hs.taken
  simp only [inFlight, current, hrun, List.append_nil] at hsub htaken
  refine ⟨hsub, ?_, hs.published, fun p tasks valid h => by cases h⟩
  rw [htaken]
  rfl

/-- **One step keeps the subscriptions together.**  The swap, the calls and the push-back move them
    around, and only `Register` adds one. -/
theorem sound_step (a : Act) (hs : Sound s) (hstep : step s a = some s') : Sound s' := by
  cases a with
  | register key topics =>
    cases hstep
    exact sound_register hs key topics
  | message x =>
    simp only [step] at hstep
    split at hstep <;> cases hstep
    exact ⟨hs.subscriptions, hs.taken, hs.published, hs.publishing⟩
  | filter =>
    simp only [step] at hstep
    split at hstep <;> cases hstep
    -- the filter may add a topic, which has no consumers yet
    refine ⟨fun topic => ?_, hs.taken, hs.published, hs.publishing⟩
    rw [held_insertNew]
    exact hs.subscriptions topic
  | forward =>
    simp only [step] at hstep
    split at hstep <;> cases hstep
    exact ⟨hs.subscriptions, hs.taken, hs.published, hs.publishing⟩
  | read =>
    simp only [step] at hstep
    split at hstep <;> cases hstep
    exact sound_read hs ‹_› _ _
  | swapOut =>
    simp only [step] at hstep
    split at hstep <;> cases hstep
    exact sound_swapOut hs ‹_›
  | call ok =>
    simp only [step] at hstep
    -- a consumer that returns true goes to the valid ones, and another one is dropped
    split at hstep
    · split_ifs at hstep <;> cases hstep
      · exact sound_keep hs ‹_›
      · exact sound_refuse hs ‹_›
    · cases hstep
  | pushBack =>
    simp only [step] at hstep
    split at hstep <;> cases hstep
    exact sound_pushBack hs ‹_›

/-- They are together in every run. -/
theorem sound_of_exec {acts : List Act} (h : exec step {} acts = some s) : Sound s :=
  exec_invariant (fun _ _ _ => sound_step _) sound_init h

/-! ### A message is published whatever the consumers return -/

/-- What `Run` does after the swap, if the consumers return `oks`. -/
def callbacks (oks : List Bool) : List Act :=
  if oks = [] then [] else oks.map .call ++ [.pushBack]

/-- The consumers that were swapped out are called one after another, whatever they return. -/
theorem exec_calls {p : Publication} {tasks valid : List Consumer} {oks : List Bool}
    (hrun : s.run = .publishing p tasks valid) (hlength : oks.length = tasks.length) :
    ∃ s', exec step s (oks.map .call ++ [.pushBack]) = some s' ∧
      s'.published = s.published ++ [{ p with called := p.called ++ tasks }] := by
  -- a call moves the first task to `called`, whatever it returns
  induction tasks generalizing s p valid oks with
  | nil =>
    rw [List.length_nil, List.length_eq_zero_iff] at hlength
    subst hlength
    refine ⟨s.pushBack p valid, ?_, ?_⟩
    · simp [exec, step, hrun]
    · simp [pushBack]
  | cons c tasks ih =>
    obtain ⟨ok, oks, rfl⟩ := List.exists_cons_of_length_eq_add_one hlength
    have hlength' : oks.length = tasks.length := Nat.succ.inj hlength
    simp only [List.map_cons, List.cons_append, exec_cons_eq_some]
    cases ok with
    | true =>
      obtain ⟨s', hexec, hpublished⟩ := @ih
        { s with run := .publishing { p with called := p.called ++ [c] } tasks (valid ++ [c]) }
        _ _ _ rfl hlength'
      refine ⟨s', ⟨_, ?_, hexec⟩, ?_⟩
      · simp [step, hrun]
      · simpa using hpublished
    | false =>
      obtain ⟨s', hexec, hpublished⟩ := @ih
        { s with
          run := .publishing { p with called := p.called ++ [c] } tasks valid
          refused := s.refused ++ [(p.output.topic, c)] }
        _ _ _ rfl hlength'
      refine ⟨s', ⟨_, ?_, hexec⟩, ?_⟩
      · simp [step, hrun]
      · simpa using hpublished

/-- **A message is published** to the consumers that its topic has when it is swapped out. -/
theorem exec_publish {output : Output} {oks : List Bool} (hrun : s.run = .decoded output)
    (hlength : oks.length = (held s.manager output.topic).length) :
    ∃ s', exec step s (.swapOut :: callbacks oks) = some s' ∧
      s'.published = s.published
        ++ [⟨output, held s.manager output.topic, held s.manager output.topic⟩] := by
  have hswap : step s .swapOut = some (s.swapOut output) := by simp [step, hrun]
  simp only [exec_cons_eq_some]
  by_cases hempty : held s.manager output.topic = []
  · rw [hempty, List.length_nil, List.length_eq_zero_iff] at hlength
    refine ⟨s.swapOut output, ⟨_, hswap, ?_⟩, ?_⟩
    · rw [callbacks, if_pos hlength, exec_nil]
    · simp [swapOut, hempty]
  · have hoks : oks ≠ [] := by
      have hpos := List.length_pos_iff.mpr hempty
      exact List.length_pos_iff.mp (by omega)
    have hrun' : (s.swapOut output).run = .publishing
        ⟨output, held s.manager output.topic, []⟩ (held s.manager output.topic) [] := by
      simp [swapOut, hempty]
    obtain ⟨s', hexec, hpublished⟩ := exec_calls hrun' hlength
    refine ⟨s', ⟨_, hswap, ?_⟩, ?_⟩
    · rwa [callbacks, if_neg hoks]
    · simpa [swapOut, hempty] using hpublished

/-- The consumers of a topic in the list and in flight are those registered for it, less those that
    have returned false.  Each message that `Run` is done with was passed once to every consumer in
    the list at the swap, one that it is publishing is passed once to every consumer when it is
    done, and it gets there whatever the consumers return. -/
theorem notifier_subscriptions {acts : List Act} (h : exec step {} acts = some s) :
    (∀ topic,
      (entriesOf s.refused topic : Multiset Consumer) ≤ entriesOf s.registered topic ∧
      (held s.manager topic + s.inFlight topic : Multiset Consumer)
        = entriesOf s.registered topic - entriesOf s.refused topic) ∧
    s.taken = s.published.map Publication.output ++ s.current ∧
    (∀ p ∈ s.published, p.called = p.swapped) ∧
    (∀ p tasks valid, s.run = .publishing p tasks valid →
      p.called ++ tasks = p.swapped ∧
      ∀ oks : List Bool, oks.length = tasks.length →
        ∃ s', exec step s (oks.map .call ++ [.pushBack]) = some s' ∧
          s'.published = s.published ++ [⟨p.output, p.swapped, p.swapped⟩]) ∧
    (∀ output, s.run = .decoded output →
      ∀ oks : List Bool, oks.length = (held s.manager output.topic).length →
        ∃ s', exec step s (.swapOut :: callbacks oks) = some s' ∧
          s'.published = s.published
            ++ [⟨output, held s.manager output.topic, held s.manager output.topic⟩]) := by
  have hs := sound_of_exec h
  refine ⟨fun topic => ?_, hs.taken, hs.published, fun p tasks valid hrun => ?_,
    fun output hrun oks hlength => exec_publish hrun hlength⟩
  · rw [← hs.subscriptions topic]
    exact ⟨Multiset.le_add_left _ _, Multiset.add_sub_cancel_right.symm⟩
  -- the consumers that are left are called, whatever they return
  · have hcalled := hs.publishing p tasks valid hrun
    refine ⟨hcalled, fun oks hlength => ?_⟩
    obtain ⟨s', hexec, hpublished⟩ := exec_calls hrun hlength
    rw [hcalled] at hpublished
    exact ⟨s', hexec, hpublished⟩

/-- Of two consumers the second returns false, and a third one is registered while they are
    called. -/
theorem notifier_subscriptions_refused : ∃ s,
    exec step {} [.register 7 [['0']], .register 8 [['0']], .message ⟨0, 0⟩, .filter,
      .forward, .read, .swapOut, .call true, .register 9 [['0']], .call false, .pushBack] = some s ∧
    (held s.manager ['0'] + s.inFlight ['0'] : Multiset Consumer) = {0, 2} ∧
    ∀ p ∈ s.published, p.called = [0, 1] := by
  obtain ⟨s, hs, hp⟩ := exists_of_exec_any (p := fun s : Notifier =>
    decide (entriesOf s.registered ['0'] = [0, 1, 2] ∧ entriesOf s.refused ['0'] = [1] ∧
      s.published.map Publication.swapped = [[0, 1]]))
    (show (exec step {} [.register 7 [['0']], .register 8 [['0']], .message ⟨0, 0⟩, .filter,
      .forward, .read, .swapOut, .call true, .register 9 [['0']], .call false,
      .pushBack]).any _ = true by decide +kernel)
  obtain ⟨hregistered, hrefused, hswapped⟩ := of_decide_eq_true hp
  obtain ⟨hsub, -, hpublished, -⟩ := notifier_subscriptions hs
  refine ⟨s, hs, ?_, fun p hmem => ?_⟩
  · rw [(hsub ['0']).2, hregistered, hrefused]
    decide
  · have hp := List.mem_map_of_mem (f := Publication.swapped) hmem
    rw [hswapped, List.mem_singleton] at hp
    rw [hpublished p hmem, hp]

/-! ### The filter -/

/-- A consumer is registered for the topic and has never returned false on a message of it. -/
def Subscribed (s : Notifier) (topic : Topic) : Prop :=
  ∃ c, (topic, c) ∈ s.registered ∧ (topic, c) ∉ s.refused

/-- The entries of a topic in a record. -/
theorem mem_entriesOf {record : List (Topic × Consumer)} :
    c ∈ entriesOf record topic ↔ (topic, c) ∈ record := by
  simp [entriesOf]

/-- A subscribed consumer is in the list, or in flight. -/
theorem Sound.mem_of_subscribed (hs : Sound s) (hreg : (topic, c) ∈ s.registered)
    (hrefused : (topic, c) ∉ s.refused) : c ∈ held s.manager topic ∨ c ∈ s.inFlight topic := by
  have hmem : c ∈ (entriesOf s.registered topic : Multiset Consumer) := mem_entriesOf.mpr hreg
  rw [← hs.subscriptions topic, Multiset.mem_add, Multiset.mem_add] at hmem
  exact hmem.resolve_right fun h => hrefused (mem_entriesOf.mp h)

/-- A consumer that is swapped out was registered for the topic. -/
theorem Sound.registered_of_mem (hs : Sound s) (hc : c ∈ s.inFlight topic) :
    (topic, c) ∈ s.registered := by
  rw [← mem_entriesOf, ← Multiset.mem_coe, ← hs.subscriptions topic]
  exact Multiset.mem_add.mpr (.inl (Multiset.mem_add.mpr (.inr hc)))

/-- The filter looks at the list of the topic, which the lookup makes if there is none. -/
theorem step_filter {x : Data} (hrelay : s.relay = .decrypted x) :
    step s .filter = some { s with
      manager := insertNew s.manager (retrieveTopic x.b) []
      relay := if s.accepts (retrieveTopic x.b) then .accepted x else .idle } := by
  simp only [step, hrelay]

/-- **The filter and `Run`.**  The filter accepts a message whose topic has a subscribed consumer,
    exactly if the list of the topic is not empty or no such consumer is swapped out.  Consumers
    are swapped out while `Run` publishes another message of the topic: from `tasks.swap(ref)`,
    through the calls of the consumers, until those that have returned true are pushed back. -/
theorem relay_filter {acts : List Act} {x : Data} (h : exec step {} acts = some s)
    (hrelay : s.relay = .decrypted x) (hstep : step s .filter = some s') :
    (s.Subscribed (retrieveTopic x.b) → s'.relay = .accepted x) ↔
      held s.manager (retrieveTopic x.b) ≠ [] ∨
        ∀ c ∈ s.inFlight (retrieveTopic x.b), (retrieveTopic x.b, c) ∈ s.refused := by
  have hs := sound_of_exec h
  rw [step_filter hrelay] at hstep
  cases hstep
  have haccepts :
      (if s.accepts (retrieveTopic x.b) then RelayPc.accepted x else .idle) = .accepted x
        ↔ held s.manager (retrieveTopic x.b) ≠ [] := by
    simp [accepts]
  dsimp only
  rw [haccepts]
  constructor
  · -- otherwise a consumer that is swapped out is subscribed, and the list is empty
    intro hsub
    by_contra hnot
    push Not at hnot
    obtain ⟨hempty, c, hc, hrefused⟩ := hnot
    exact hsub ⟨c, hs.registered_of_mem hc, hrefused⟩ hempty
  · rintro (hheld | hflight) ⟨c, hreg, hrefused⟩
    · exact hheld
    · rcases hs.mem_of_subscribed hreg hrefused with hc | hc
      · exact List.ne_nil_of_mem hc
      · exact absurd (hflight c hc) hrefused

/-- The second message is accepted when the consumer is in the list again. -/
theorem relay_filter_pushed_back : ∃ s s',
    exec step {} [.register 7 [['0']], .message ⟨0, 0⟩, .filter, .forward, .read, .swapOut,
      .message ⟨1, 0⟩, .call true, .pushBack] = some s ∧
    step s .filter = some s' ∧ s'.relay = .accepted ⟨1, 0⟩ := by
  obtain ⟨s, hs, hp⟩ := exists_of_exec_any (p := fun s : Notifier =>
    decide (s.relay = .decrypted ⟨1, 0⟩ ∧ (retrieveTopic 0, 0) ∈ s.registered ∧
      (retrieveTopic 0, 0) ∉ s.refused ∧ held s.manager (retrieveTopic 0) ≠ []))
    (show (exec step {} [.register 7 [['0']], .message ⟨0, 0⟩, .filter, .forward, .read,
      .swapOut, .message ⟨1, 0⟩, .call true, .pushBack]).any _ = true by decide +kernel)
  obtain ⟨hrelay, hregistered, hrefused, hheld⟩ := of_decide_eq_true hp
  have haccepted := (relay_filter hs hrelay (step_filter hrelay)).mpr (.inl hheld)
  exact ⟨s, _, hs, step_filter hrelay, haccepted ⟨0, hregistered, hrefused⟩⟩

/-- While the only consumer is called for the first message, the second one is dropped. -/
theorem relay_filter_dropped : ∃ s s',
    exec step {} [.register 7 [['0']], .message ⟨0, 0⟩, .filter, .forward, .read, .swapOut,
      .message ⟨1, 0⟩] = some s ∧
    s.relay = .decrypted ⟨1, 0⟩ ∧ step s .filter = some s' ∧
    s.Subscribed (retrieveTopic 0) ∧ s'.relay = .idle := by
  obtain ⟨s, hs, hp⟩ := exists_of_exec_any (p := fun s : Notifier =>
    decide (s.relay = .decrypted ⟨1, 0⟩ ∧ (retrieveTopic 0, 0) ∈ s.registered ∧
      (retrieveTopic 0, 0) ∉ s.refused ∧ s.accepts (retrieveTopic 0) = false))
    (show (exec step {} [.register 7 [['0']], .message ⟨0, 0⟩, .filter, .forward, .read,
      .swapOut, .message ⟨1, 0⟩]).any _ = true by decide +kernel)
  obtain ⟨hrelay, hregistered, hrefused, haccepts⟩ := of_decide_eq_true hp
  refine ⟨s, _, hs, hrelay, step_filter hrelay, ⟨0, hregistered, hrefused⟩, ?_⟩
  simp only [haccepts, Bool.false_eq_true, if_false]

end Notifier

end CPlayground.Relay
