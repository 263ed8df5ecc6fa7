import CPlayground.Monitor.Forwarder.Moves

namespace CPlayground.Monitor.Forwarder

open CPlayground.Table CPlayground.Trace

/-!
# Delivery: who gets which client

A follower that does not wait has dialogue -1.  So has, as far as `peek_header` can tell, a client
whose header carries -1.

* `delivery_justified` — in a run where no client with dialogue -1 arrives while a registered
  follower holds -1, every publication answers the latest notification of its follower, which names
  the client's dialogue and was not answered before, and no client is published twice.
* `sentinel_delivered` — without the condition, a client with dialogue -1 goes to a follower that
  never asked for anything.
-/

variable {s s' : Forwarder}

/-- Every publication in the log (the latest event first) answers the event before it that is about
    the same follower, a notification for the client's dialogue, and is the client's first. -/
def Justified (log : List Event) : Prop :=
  ∀ f c earlier, .published f c :: earlier <:+ log →
    earlier.find? (fun e => e.node = f.node) = some (.notified f.node c.dialogue) ∧
      ∀ g e, .published g e ∈ earlier → e.conn ≠ c.conn

/-- A notification needs no justification. -/
theorem justified_notified {log : List Event} (h : Justified log) (n : Nat) (d : Int32) :
    Justified (.notified n d :: log) := by
  intro f c earlier hsuffix
  rcases List.suffix_cons_iff.mp hsuffix with heq | hsuffix
  · cases heq
  · exact h f c earlier hsuffix

/-- A publication is justified if the last event of its follower is a notification for the dialogue,
    and the client is new in the log. -/
theorem justified_published {log : List Event} (h : Justified log) {f : FollowerContext}
    {c : ClientInfo}
    (hlast : log.find? (fun e => e.node = f.node) = some (.notified f.node c.dialogue))
    (hfirst : ∀ g e, .published g e ∈ log → e.conn ≠ c.conn) :
    Justified (.published f c :: log) := by
  intro g e earlier hsuffix
  rcases List.suffix_cons_iff.mp hsuffix with heq | hsuffix
  · cases heq
    exact ⟨hlast, hfirst⟩
  · exact h g e earlier hsuffix

/-- A client whose header carries -1 arrives only while no registered follower holds -1. -/
def NoSentinel (s : Forwarder) : Act → Prop
  | .peekHeader _ d _ _ => d = -1 → ∀ f ∈ s.list_follower,
      s.map_follower.lookup f.pid = some f.node → f.dialogue ≠ -1
  | _ => True

instance decidableNoSentinel (s : Forwarder) : (a : Act) → Decidable (NoSentinel s a)
  | .peekHeader .. => inferInstanceAs (Decidable (_ → ∀ f ∈ _, _ → _))
  | .acceptFollower .. | .acceptClient _ | .notify .. | .hangup _ => .isTrue trivial

/-- What the log says about the state: it is justified, a follower that waits was notified last, and
    a client that was published is closed. -/
structure Logged (s : Forwarder) : Prop where
  justified : Justified s.log
  /-- A follower that waits was notified, and nothing has happened to it since. -/
  waiting : ∀ f ∈ s.list_follower, f.dialogue ≠ -1 →
    s.log.find? (fun e => e.node = f.node) = some (.notified f.node f.dialogue)
  /-- A client that was published is closed. -/
  closed : ∀ f c, .published f c ∈ s.log → .client c.conn ∈ s.poll.closed

/-- Nothing was published. -/
theorem logged_init : Logged init :=
  ⟨fun _ _ _ h => absurd (List.suffix_nil.mp h) (List.cons_ne_nil _ _), nofun, nofun⟩

namespace Sound

/-- A client with a poll entry has not been closed. -/
theorem not_closed_of_entry (h : Sound s) {fd n : Nat}
    (hentry : s.poll.entry_map.lookup fd = some (.client n)) : .client n ∉ s.poll.closed := by
  intro hmem
  have hentries : 0 < (values s.poll.entry_map).count (.client n) :=
    List.count_pos_iff.mpr (mem_values.mpr ⟨fd, hentry⟩)
  have hclosed := List.count_pos_iff.mpr hmem
  have honce := h.held_le_one n
  rw [held] at honce
  omega

/-- A client in `list_client` has not been closed. -/
theorem not_closed_of_mem (h : Sound s) {c : ClientInfo} (hc : c ∈ s.list_client) :
    .client c.conn ∉ s.poll.closed := by
  intro hmem
  have hlist : 0 < (s.list_client.map (·.conn)).count c.conn :=
    List.count_pos_iff.mpr (List.mem_map_of_mem hc)
  have hclosed := List.count_pos_iff.mpr hmem
  have honce := h.held_le_one c.conn
  rw [held] at honce
  omega

end Sound

/-- Followers that an event is not about keep their latest event. -/
theorem waiting_cons {log : List Event} {e : Event} {f : FollowerContext} (hne : f.node ≠ e.node)
    (h : log.find? (fun e => e.node = f.node) = some (.notified f.node f.dialogue)) :
    (e :: log).find? (fun e => e.node = f.node) = some (.notified f.node f.dialogue) := by
  rw [List.find?_cons_of_neg (by simpa using hne.symm)]
  exact h

/-- **Every move writes a justified log**, if no client with dialogue -1 meets a follower that does
    not wait. -/
theorem logged_move (h : Sound s) {a : Act} (hok : NoSentinel s a) (hm : Move s a s')
    (hlog : Logged s) : Logged s' := by
  cases hm with
  | acceptFollower fd pid hfree =>
    refine ⟨hlog.justified, fun f hf hd => ?_, hlog.closed⟩
    rcases List.mem_cons.mp hf with rfl | hf
    · exact absurd rfl hd
    · exact hlog.waiting f hf hd
  | acceptClient fd hfree => exact ⟨hlog.justified, hlog.waiting, hlog.closed⟩
  | stored fd conn d now order hentry hno => exact ⟨hlog.justified, hlog.waiting, hlog.closed⟩
  | forwarded fd conn d now order f hentry hf hreg hd =>
    subst hd
    -- the follower waits for a dialogue that is not -1, so it was notified
    have hwaits : f.dialogue ≠ -1 := fun hd => hok hd f hf hreg hd
    refine ⟨justified_published hlog.justified (hlog.waiting f hf hwaits) ?_, ?_, ?_⟩
    -- the client is open, and those that were published before are closed
    · rintro g e hmem rfl
      exact h.not_closed_of_entry hentry (hlog.closed g e hmem)
    · intro g hg hd
      rcases mem_setDialogue.mp hg with ⟨_, -, -, rfl⟩ | ⟨hg, hne⟩
      · exact absurd rfl hd
      · exact waiting_cons hne (hlog.waiting g hg hd)
    · intro g e hmem
      rcases List.mem_cons.mp hmem with heq | hmem
      · cases heq
        exact List.mem_cons_self
      · exact List.mem_cons_of_mem _ (hlog.closed g e hmem)
  | ignored pid d now hreg => exact hlog
  | notified pid d now f hf hpid hreg hnone =>
    refine ⟨justified_notified hlog.justified _ _, ?_, ?_⟩
    · intro g hg hd
      -- nodes are unique, so it is the follower of the notification, and this is the last event of
      -- it
      rcases mem_setDialogue.mp hg with ⟨f', hf', hnode, rfl⟩ | ⟨hg, hne⟩
      · obtain rfl := h.eq_of_node hf' hf hnode
        exact List.find?_cons_of_pos (decide_eq_true rfl)
      · exact waiting_cons hne (hlog.waiting g hg hd)
    · intro g e hmem
      rcases List.mem_cons.mp hmem with heq | hmem
      · cases heq
      · exact hlog.closed g e hmem
  | fetched pid d now f c hf hpid hreg hsome =>
    obtain ⟨hc, rfl, -⟩ := scan_matched hsome
    -- a notification and a delivery at once
    refine ⟨justified_published (justified_notified hlog.justified _ _) ?_ ?_, ?_, ?_⟩
    · exact List.find?_cons_of_pos (decide_eq_true rfl)
    · intro g e hmem heq
      rcases List.mem_cons.mp hmem with hmem | hmem
      · cases hmem
      · exact h.not_closed_of_mem hc (heq ▸ hlog.closed g e hmem)
    · intro g hg hd
      rcases mem_setDialogue.mp hg with ⟨_, -, -, rfl⟩ | ⟨hg, hne⟩
      · exact absurd rfl hd
      · exact waiting_cons hne (waiting_cons hne (hlog.waiting g hg hd))
    · intro g e hmem
      rcases List.mem_cons.mp hmem with heq | hmem
      · cases heq
        exact List.mem_cons_self
      · rcases List.mem_cons.mp hmem with heq | hmem
        · cases heq
        · exact List.mem_cons_of_mem _ (hlog.closed g e hmem)
  | clientHungUp fd conn hentry =>
    exact ⟨hlog.justified, hlog.waiting, fun g e hmem =>
      List.mem_cons_of_mem _ (hlog.closed g e hmem)⟩
  | followerHungUp fd f hf hfd hentry =>
    exact ⟨hlog.justified, fun g hg => hlog.waiting g (List.mem_of_mem_erase hg),
      fun g e hmem => List.mem_cons_of_mem _ (hlog.closed g e hmem)⟩

/-- **Delivery safety.**  In every run where no client with dialogue -1 meets a registered follower
    that holds -1, every publication answers the latest notification of its follower, which named
    the client's dialogue and was not answered before, and is the only one of its client. -/
theorem delivery_justified (acts : List Act) (s : Forwarder)
    (hrun : exec step init acts = some s) (hsentinel : Along step NoSentinel init acts) :
    Justified s.log := by
  have hinv : Sound s ∧ Logged s :=
    exec_invariants_along (fun _ _ _ => sound_step)
      (fun _ _ _ hs hlog hok hst => logged_move hs hok (move_of_step hs hst) hlog)
      sound_init logged_init hsentinel hrun
  exact hinv.2.justified

/-- A follower asks for dialogue 5, and the client with dialogue 5 comes. -/
def asked : List Act :=
  [.acceptFollower 3 7, .notify 7 5 0, .acceptClient 4, .peekHeader 4 5 10 [0]]

/-- The follower asks for dialogue 5, and gets the client that comes with it. -/
theorem delivery_justified_asked : ∃ s, exec step init asked = some s ∧
    .published ⟨0, 7, 3, 5⟩ ⟨4, 5, 10, 0⟩ ∈ s.log ∧ Justified s.log := by
  obtain ⟨s, hrun, htest⟩ := exists_of_exec_any
    (show (exec step init asked).any
      (fun s => .published ⟨0, 7, 3, 5⟩ ⟨4, 5, 10, 0⟩ ∈ s.log) = true by decide +kernel)
  exact ⟨s, hrun, of_decide_eq_true htest, delivery_justified asked s hrun (by decide +kernel)⟩

/-- A client with dialogue -1 is published to a follower that was never notified. -/
theorem sentinel_delivered : ∃ s,
    exec step init [.acceptFollower 3 7, .acceptClient 4, .peekHeader 4 (-1) 0 [0]] = some s ∧
      s.log = [.published ⟨0, 7, 3, -1⟩ ⟨4, -1, 0, 0⟩] ∧ ¬ Justified s.log := by
  obtain ⟨s, hrun, htest⟩ := exists_of_exec_any
    (show (exec step init [.acceptFollower 3 7, .acceptClient 4, .peekHeader 4 (-1) 0 [0]]).any
      (fun s => s.log = [.published ⟨0, 7, 3, -1⟩ ⟨4, -1, 0, 0⟩]) = true by decide +kernel)
  have hlog : s.log = [.published ⟨0, 7, 3, -1⟩ ⟨4, -1, 0, 0⟩] := of_decide_eq_true htest
  refine ⟨s, hrun, hlog, fun h => ?_⟩
  rw [hlog] at h
  obtain ⟨hlast, -⟩ := h _ _ [] List.suffix_rfl
  cases hlast

end CPlayground.Monitor.Forwarder
