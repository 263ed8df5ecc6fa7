import CPlayground.Monitor.Forwarder.Model

namespace CPlayground.Monitor.Forwarder

open CPlayground.Table CPlayground.Trace

/-!
# What an event of the `Forwarder` can do

* `Sound` — holds in every reachable state: an iterator in `map_follower` points to a live node with
  that pid, a poll entry and a waiting client are about the socket their descriptor stands for, and
  no client is held twice.
* `Move` — the outcomes of an event in a sound state, one constructor per branch of the callbacks;
  every result about the forwarder is proved by cases on them.
-/

variable {s s' : Forwarder}

/-! ### The pieces of the callbacks -/

/-- What never changes of a follower: its node, its pid and its descriptor. -/
def ident (f : FollowerContext) : Nat × Int32 × Nat := (f.node, f.pid, f.fd)

/-- The nodes of the followers with what identifies them, without the dialogue. -/
def idents (s : Forwarder) : List (Nat × Int32 × Nat) := s.list_follower.map ident

/-- A follower is in the list with its identity. -/
theorem ident_mem_idents {f : FollowerContext} (h : f ∈ s.list_follower) : ident f ∈ s.idents :=
  List.mem_map_of_mem h

/-- An identity in the list is the one of a follower. -/
theorem exists_of_mem_idents {n fd : Nat} {pid : Int32} (h : (n, pid, fd) ∈ s.idents) :
    ∃ f ∈ s.list_follower, f.node = n ∧ f.pid = pid ∧ f.fd = fd := by
  obtain ⟨f, hf, hid⟩ := List.mem_map.mp h
  simp only [ident, Prod.mk.injEq] at hid
  exact ⟨f, hf, hid⟩

/-- An assignment to a dialogue changes `list_follower` only. -/
@[simp] theorem setDialogue_frame (n : Nat) (d : Int32) :
    (s.setDialogue n d).list_client = s.list_client ∧
      (s.setDialogue n d).map_follower = s.map_follower ∧ (s.setDialogue n d).poll = s.poll ∧
      (s.setDialogue n d).clients = s.clients ∧ (s.setDialogue n d).followers = s.followers ∧
      (s.setDialogue n d).log = s.log ∧ (s.setDialogue n d).undefined = s.undefined :=
  ⟨rfl, rfl, rfl, rfl, rfl, rfl, rfl⟩

/-- A new dialogue does not change who the followers are. -/
theorem idents_setDialogue (n : Nat) (d : Int32) : (s.setDialogue n d).idents = s.idents := by
  show (s.list_follower.map _).map ident = s.list_follower.map ident
  rw [List.map_map]
  refine List.map_congr_left fun f _ => ?_
  show ident (if f.node = n then { f with dialogue := d } else f) = ident f
  split <;> rfl

/-- A new dialogue changes the follower on the node, and no other one. -/
theorem mem_setDialogue {n : Nat} {d : Int32} {g : FollowerContext} :
    g ∈ (s.setDialogue n d).list_follower ↔
      (∃ f ∈ s.list_follower, f.node = n ∧ { f with dialogue := d } = g) ∨
        (g ∈ s.list_follower ∧ g.node ≠ n) := by
  simp only [setDialogue, List.mem_map]
  constructor
  · rintro ⟨f, hf, rfl⟩
    split
    · exact .inl ⟨f, hf, ‹_›, rfl⟩
    · exact .inr ⟨hf, ‹_›⟩
  · rintro (⟨f, hf, hn, rfl⟩ | ⟨hg, hn⟩)
    · exact ⟨f, hf, if_pos hn⟩
    · exact ⟨g, hg, if_neg hn⟩

/-- The second assignment wins. -/
theorem setDialogue_setDialogue (n : Nat) (d e : Int32) :
    (s.setDialogue n d).setDialogue n e = s.setDialogue n e := by
  simp only [setDialogue, List.map_map, Forwarder.mk.injEq, and_true, true_and]
  refine List.map_congr_left fun f _ => ?_
  simp only [Function.comp]
  split <;> simp [*]

/-- Every client the loop of `handle_notify` met is expired, published or kept. -/
theorem scan_perm (d : Int32) (now : ℚ) (l : List ClientInfo) :
    l.Perm ((scan d now l).invalid ++ ((scan d now l).matched.toList ++ (scan d now l).kept)) := by
  induction l with
  | nil => exact .refl _
  | cons c cs ih =>
    rw [scan]
    split
    · exact ih.cons c
    split
    · exact .refl _
    · refine (ih.cons c).trans ?_
      rw [← List.append_assoc, ← List.append_assoc]
      exact List.perm_middle.symm

/-- A client that still waits after a scan has waited before. -/
theorem mem_of_mem_kept {d : Int32} {now : ℚ} {l : List ClientInfo} {c : ClientInfo}
    (h : c ∈ (scan d now l).kept) : c ∈ l := by
  refine (scan_perm d now l).mem_iff.mpr ?_
  simp [h]

/-- The published client has waited for this dialogue, and not too long: the scan passes over those
    that have expired. -/
theorem scan_matched {d : Int32} {now : ℚ} {l : List ClientInfo} {c : ClientInfo}
    (h : (scan d now l).matched = some c) :
    c ∈ l ∧ c.dialogue = d ∧ now - c.timestamp ≤ CLIENTINFO_EXPIREDTHRESHOLD := by
  induction l with
  | nil => cases h
  | cons e cs ih =>
    rw [scan] at h
    split at h
    · obtain ⟨hmem, hc⟩ := ih h
      exact ⟨List.mem_cons_of_mem _ hmem, hc⟩
    · rename_i hfresh
      split at h
      · cases h
        exact ⟨List.mem_cons_self, ‹_›, not_lt.mp hfresh⟩
      · obtain ⟨hmem, hc⟩ := ih h
        exact ⟨List.mem_cons_of_mem _ hmem, hc⟩

/-- The loop of `peek_header`, when no iterator dangles: it finds the first follower that waits for
    the dialogue, or there is none. -/
theorem waiting_cases {l : List FollowerContext} {d : Int32} {order : List Nat}
    (hlive : ∀ n ∈ order, ∃ f, deref l n = some f) :
    (waiting l d order = .absent ∧ ∀ n ∈ order, ∀ f, deref l n = some f → f.dialogue ≠ d) ∨
      ∃ n ∈ order, ∃ f, deref l n = some f ∧ f.dialogue = d ∧ waiting l d order = .follower f := by
  induction order with
  | nil => exact .inl ⟨rfl, nofun⟩
  | cons n order ih =>
    obtain ⟨f, hf⟩ := hlive n List.mem_cons_self
    rw [waiting, hf]
    dsimp only
    split
    · exact .inr ⟨n, List.mem_cons_self, f, hf, ‹_›, rfl⟩
    · rename_i hd
      rcases ih fun k hk => hlive k (List.mem_cons_of_mem _ hk) with ⟨habs, hno⟩ | ⟨k, hk, hfound⟩
      · refine .inl ⟨habs, fun k hk g hg => ?_⟩
        rcases List.mem_cons.mp hk with rfl | hk
        · obtain rfl : f = g := Option.some.inj (hf.symm.trans hg)
          exact hd
        · exact hno k hk g hg
      · exact .inr ⟨k, List.mem_cons_of_mem _ hk, hfound⟩

/-! ### The invariant -/

/-- How often client `n` is held by the poll entries or by `list_client`, or has been closed. -/
def held (s : Forwarder) (n : Nat) : Nat :=
  (values s.poll.entry_map).count (.client n) + (s.list_client.map (·.conn)).count n +
    s.poll.closed.count (.client n)

/-- What holds in every reachable state.  The tables agree with each other: the list of the
    followers, the map, the poll entries and the descriptors; and no client is held twice. -/
structure Sound (s : Forwarder) : Prop where
  defined : s.undefined = false
  nodes : (s.idents.map Prod.fst).Nodup
  node_lt : ∀ i ∈ s.idents, i.1 < s.followers
  /-- The entries of followers are about the elements of `list_follower`. -/
  entry : ∀ fd n, s.poll.entry_map.lookup fd = some (.follower n) ↔
    ∃ pid, (n, pid, fd) ∈ s.idents
  /-- No iterator in `map_follower` dangles. -/
  live : ∀ pid n, s.map_follower.lookup pid = some n → ∃ fd, (n, pid, fd) ∈ s.idents
  owned : s.poll.Owned
  opened : ∀ c ∈ s.list_client, s.poll.fds.lookup c.fd = some (.client c.conn)
  once : ∀ n, s.held n ≤ if n < s.clients then 1 else 0

/-- There are no followers and no clients. -/
theorem sound_init : Sound init where
  defined := rfl
  nodes := List.nodup_nil
  node_lt := nofun
  entry fd n := by
    refine iff_of_false lookup_empty_ne_some ?_
    rintro ⟨pid, hid⟩
    cases hid
  live pid n h := absurd h lookup_empty_ne_some
  owned := Poll.owned_empty
  opened := nofun
  once n := Nat.zero_le _

namespace Sound

/-- Followers are told apart by their nodes. -/
theorem eq_of_node (h : Sound s) {f g : FollowerContext} (hf : f ∈ s.list_follower)
    (hg : g ∈ s.list_follower) (hn : f.node = g.node) : f = g := by
  have hnodup := h.nodes
  rw [idents, List.map_map] at hnodup
  exact List.inj_on_of_nodup_map hnodup hf hg hn

/-- An iterator to a node of the list stands for the only follower on it. -/
theorem deref_eq_some (h : Sound s) {n : Nat} {f : FollowerContext} :
    deref s.list_follower n = some f ↔ f ∈ s.list_follower ∧ f.node = n := by
  constructor
  · intro hf
    exact ⟨List.mem_of_find?_eq_some hf, of_decide_eq_true (List.find?_some hf :)⟩
  · rintro ⟨hf, rfl⟩
    obtain ⟨g, hg⟩ : ∃ g, deref s.list_follower f.node = some g := by
      rw [← Option.isSome_iff_exists, deref, List.find?_isSome]
      exact ⟨f, hf, decide_eq_true rfl⟩
    have hnode : g.node = f.node := of_decide_eq_true (List.find?_some hg :)
    rw [hg, h.eq_of_node (List.mem_of_find?_eq_some hg) hf hnode]

/-- The follower registered for `pid`. -/
theorem exists_follower (h : Sound s) {pid : Int32} {n : Nat}
    (hreg : s.map_follower.lookup pid = some n) :
    ∃ f ∈ s.list_follower, f.node = n ∧ f.pid = pid := by
  obtain ⟨fd, hid⟩ := h.live pid n hreg
  obtain ⟨f, hf, hn, hpid, -⟩ := exists_of_mem_idents hid
  exact ⟨f, hf, hn, hpid⟩

end Sound

/-! ### The outcomes of an event -/

/-- The outcomes of an event, one constructor for each branch of the callbacks; a branch that would
    follow a dangling iterator is not among them. -/
inductive Move (s : Forwarder) : Act → Forwarder → Prop where
  | acceptFollower (fd : Nat) (pid : Int32) (hfree : s.poll.fds.lookup fd = none) :
      Move s (.acceptFollower fd pid)
        { s with
          list_follower := ⟨s.followers, pid, fd, -1⟩ :: s.list_follower
          map_follower := insertNew s.map_follower pid s.followers
          poll := { s.poll with entry_map := s.poll.entry_map.insert fd (.follower s.followers)
                                fds := s.poll.fds.insert fd (.follower s.followers) }
          followers := s.followers + 1 }
  | acceptClient (fd : Nat) (hfree : s.poll.fds.lookup fd = none) :
      Move s (.acceptClient fd)
        { s with
          poll := { s.poll with entry_map := s.poll.entry_map.insert fd (.client s.clients)
                                fds := s.poll.fds.insert fd (.client s.clients) }
          clients := s.clients + 1 }
  /-- No registered follower waits for the client. -/
  | stored (fd conn : Nat) (d : Int32) (now : ℚ) (order : List Nat)
      (hentry : s.poll.entry_map.lookup fd = some (.client conn))
      (hno : ∀ f ∈ s.list_follower, s.map_follower.lookup f.pid = some f.node → f.dialogue ≠ d) :
      Move s (.peekHeader fd d now order)
        { s with list_client := ⟨fd, d, now, conn⟩ :: s.list_client, poll := s.poll.remove fd }
  /-- The client goes to a follower that waits for it. -/
  | forwarded (fd conn : Nat) (d : Int32) (now : ℚ) (order : List Nat) (f : FollowerContext)
      (hentry : s.poll.entry_map.lookup fd = some (.client conn)) (hf : f ∈ s.list_follower)
      (hreg : s.map_follower.lookup f.pid = some f.node) (hd : f.dialogue = d) :
      Move s (.peekHeader fd d now order)
        { s.setDialogue f.node (-1) with
          poll := { entry_map := s.poll.entry_map.erase fd, fds := s.poll.fds.erase fd,
                    closed := .client conn :: s.poll.closed }
          log := .published f ⟨fd, d, now, conn⟩ :: s.log }
  | ignored (pid d : Int32) (now : ℚ) (hreg : s.map_follower.lookup pid = none) :
      Move s (.notify pid d now) s
  /-- The follower has to wait. -/
  | notified (pid d : Int32) (now : ℚ) (f : FollowerContext) (hf : f ∈ s.list_follower)
      (hpid : f.pid = pid) (hreg : s.map_follower.lookup pid = some f.node)
      (hnone : (scan d now s.list_client).matched = none) :
      Move s (.notify pid d now)
        { s.setDialogue f.node d with
          list_client := (scan d now s.list_client).kept
          log := .notified f.node d :: s.log }
  /-- The client was there first. -/
  | fetched (pid d : Int32) (now : ℚ) (f : FollowerContext) (c : ClientInfo)
      (hf : f ∈ s.list_follower) (hpid : f.pid = pid)
      (hreg : s.map_follower.lookup pid = some f.node)
      (hsome : (scan d now s.list_client).matched = some c) :
      Move s (.notify pid d now)
        { s.setDialogue f.node (-1) with
          list_client := (scan d now s.list_client).kept
          poll := { s.poll with fds := s.poll.fds.erase c.fd
                                closed := .client c.conn :: s.poll.closed }
          log := .published { f with dialogue := d } c :: .notified f.node d :: s.log }
  | clientHungUp (fd conn : Nat) (hentry : s.poll.entry_map.lookup fd = some (.client conn)) :
      Move s (.hangup fd)
        { s with poll := { entry_map := s.poll.entry_map.erase fd, fds := s.poll.fds.erase fd,
                           closed := .client conn :: s.poll.closed } }
  | followerHungUp (fd : Nat) (f : FollowerContext) (hf : f ∈ s.list_follower) (hfd : f.fd = fd)
      (hentry : s.poll.entry_map.lookup fd = some (.follower f.node)) :
      Move s (.hangup fd)
        { s with
          list_follower := s.list_follower.erase f
          map_follower := s.map_follower.erase f.pid
          poll := { entry_map := s.poll.entry_map.erase fd, fds := s.poll.fds.erase fd,
                    closed := .follower f.node :: s.poll.closed } }

/-- What a header does: a follower waits for the dialogue and gets the client, or the client
    waits. -/
theorem move_peekHeader (h : Sound s) {fd conn : Nat} (d : Int32) (now : ℚ) {order : List Nat}
    (hentry : s.poll.entry_map.lookup fd = some (.client conn))
    (horder : order.Perm (values s.map_follower)) :
    Move s (.peekHeader fd d now order) (s.peekHeader fd conn d now order) := by
  -- every iterator of the map points to a follower of the list
  have hderef : ∀ n ∈ order, ∃ pid, s.map_follower.lookup pid = some n := fun n hn =>
    mem_values.mp (horder.mem_iff.mp hn)
  have hlive : ∀ n ∈ order, ∃ f, deref s.list_follower n = some f := by
    intro n hn
    obtain ⟨pid, hpid⟩ := hderef n hn
    obtain ⟨f, hf, hnode, -⟩ := h.exists_follower hpid
    exact ⟨f, h.deref_eq_some.mpr ⟨hf, hnode⟩⟩
  -- nobody waits for the client, or the first one in the order of the map gets it
  rcases waiting_cases (d := d) hlive with ⟨habs, hno⟩ | ⟨n, hn, f, hf, hd, hfound⟩
  · have heq : s.peekHeader fd conn d now order = { s with
        list_client := ⟨fd, d, now, conn⟩ :: s.list_client, poll := s.poll.remove fd } := by
      rw [peekHeader, habs]
    rw [heq]
    refine .stored fd conn d now order hentry fun f hf hreg => ?_
    exact hno f.node (horder.mem_iff.mpr (mem_values.mpr ⟨_, hreg⟩)) f
      (h.deref_eq_some.mpr ⟨hf, rfl⟩)
  · obtain ⟨hmem, rfl⟩ := h.deref_eq_some.mp hf
    obtain ⟨pid, hpid⟩ := hderef f.node hn
    obtain ⟨g, hg, hnode, rfl⟩ := h.exists_follower hpid
    obtain rfl := h.eq_of_node hg hmem hnode
    have hclose : (s.poll.remove fd).close fd = _ :=
      Poll.close_of_lookup (h.owned fd _ hentry :)
    rw [peekHeader, hfound]
    simp only [hclose]
    exact .forwarded fd conn d now order g hentry hmem hpid hd

/-- What a notification does: its follower is unknown, or the oldest client of the dialogue is
    published, or nobody waits for it. -/
theorem move_notify (h : Sound s) (pid d : Int32) (now : ℚ) :
    Move s (.notify pid d now) (s.handleNotify pid d now) := by
  rw [handleNotify]
  cases hreg : s.map_follower.lookup pid with
  | none => exact .ignored pid d now hreg
  | some n =>
    obtain ⟨f, hf, rfl, hpid⟩ := h.exists_follower hreg
    have hderef : deref s.list_follower f.node = some f := h.deref_eq_some.mpr ⟨hf, rfl⟩
    simp only [hderef]
    cases hscan : (scan d now s.list_client).matched with
    | none =>
      simp only [setDialogue, hscan]
      exact .notified pid d now f hf hpid hreg hscan
    | some c =>
      have hmove := Move.fetched pid d now f c hf hpid hreg hscan
      rw [← Poll.close_of_lookup (h.opened c (scan_matched hscan).1),
        ← setDialogue_setDialogue f.node d (-1)] at hmove
      simp only [setDialogue, hscan]
      exact hmove

/-- What a hangup does: the entry goes, and the follower with it if it is one. -/
theorem move_hangup (h : Sound s) {fd : Nat} {c : Socket}
    (hentry : s.poll.entry_map.lookup fd = some c) : Move s (.hangup fd) (s.hangup fd c) := by
  have herase : s.poll.erase fd = _ := Poll.erase_of_lookup h.owned hentry
  cases c with
  | client conn =>
    rw [hangup, herase]
    exact .clientHungUp fd conn hentry
  | follower n =>
    obtain ⟨pid, hid⟩ := (h.entry fd n).mp hentry
    obtain ⟨f, hf, rfl, -, hfd⟩ := exists_of_mem_idents hid
    obtain ⟨g, hg⟩ : ∃ g, s.list_follower.find? (fun f => f.fd = fd) = some g := by
      rw [← Option.isSome_iff_exists, List.find?_isSome]
      exact ⟨f, hf, decide_eq_true hfd⟩
    have hgmem := List.mem_of_find?_eq_some hg
    have hgfd : g.fd = fd := of_decide_eq_true (List.find?_some hg :)
    -- the entry tells whose descriptor it is
    have hnode : g.node = f.node := by
      have hgentry := (h.entry fd g.node).mpr ⟨g.pid, hgfd ▸ ident_mem_idents hgmem⟩
      rw [hentry, Option.some.injEq, Socket.follower.injEq] at hgentry
      exact hgentry.symm
    obtain rfl := h.eq_of_node hgmem hf hnode
    have hfirst : s.list_follower.eraseP (fun f => f.fd = fd) = s.list_follower.erase g := by
      obtain ⟨-, as, bs, hsplit, has⟩ := List.find?_eq_some_iff_append.mp hg
      have hg' : g ∉ as := fun hmem => by simpa [hgfd] using has g hmem
      rw [hsplit, List.erase_append_right _ hg', List.erase_cons_head,
        List.eraseP_append_right _ fun a ha => by simpa using has a ha, List.eraseP_cons_of_pos]
      exact decide_eq_true hgfd
    rw [hangup, closeFollower, hg]
    simp only [hfirst, herase]
    exact .followerHungUp fd g hf hgfd hentry

/-- Every event of a sound state has one of these outcomes: no iterator dangles, so that none is
    undefined. -/
theorem move_of_step (h : Sound s) {a : Act} (hst : s.step a = some s') : Move s a s' := by
  -- the invariant excludes the branches that follow a dangling iterator
  cases a with
  | acceptFollower fd pid =>
    rw [step, Option.ite_none_right_eq_some, Option.some.injEq] at hst
    obtain ⟨hfree, rfl⟩ := hst
    rw [acceptFollower, Poll.register_accept h.owned hfree]
    exact .acceptFollower fd pid hfree
  | acceptClient fd =>
    rw [step, Option.ite_none_right_eq_some, Option.some.injEq] at hst
    obtain ⟨hfree, rfl⟩ := hst
    rw [acceptClient, Poll.register_accept h.owned hfree]
    exact .acceptClient fd hfree
  | peekHeader fd d now order =>
    rw [step] at hst
    split at hst
    · rename_i conn hentry
      rw [Option.ite_none_right_eq_some, Option.some.injEq] at hst
      obtain ⟨horder, rfl⟩ := hst
      exact move_peekHeader h d now hentry horder
    · cases hst
  | notify pid d now =>
    rw [step, Option.some.injEq] at hst
    subst hst
    exact move_notify h pid d now
  | hangup fd =>
    rw [step] at hst
    split at hst
    · cases hst
      exact move_hangup h ‹_›
    · cases hst

/-! ### The invariant holds -/

/-- The times client `n` leaves `list_client` at this event without being published. -/
def dropped (s : Forwarder) (n : Nat) : Act → Nat
  | .notify pid d now =>
    if (s.map_follower.lookup pid).isSome then
      ((scan d now s.list_client).invalid.map (·.conn)).count n
    else 0
  | _ => 0

/-- A scan sorts the clients into those that have expired, the one that matches and those that still
    wait; none gets lost. -/
theorem count_scan (d : Int32) (now : ℚ) (l : List ClientInfo) (n : Nat) :
    (l.map (·.conn)).count n = ((scan d now l).invalid.map (·.conn)).count n +
      (((scan d now l).matched.toList.map (·.conn)).count n +
        ((scan d now l).kept.map (·.conn)).count n) := by
  have hperm := ((scan_perm d now l).map (·.conn)).count_eq n
  rw [List.map_append, List.map_append, List.count_append, List.count_append] at hperm
  exact hperm

/-- Erasing an entry takes its socket out, once. -/
theorem count_erase_entry {fd : Nat} {e : Socket} (h : s.poll.entry_map.lookup fd = some e)
    (x : Socket) : (values s.poll.entry_map).count x =
      (values (s.poll.entry_map.erase fd)).count x + if e = x then 1 else 0 := by
  rw [(values_erase h).count_eq x, List.count_cons]
  simp only [beq_iff_eq]

/-- A client that is accepted is held once, one that is dropped no longer; nothing else changes who
    holds it or whether it has been closed. -/
theorem held_move (h : Sound s) {a : Act} (hm : Move s a s') (n : Nat) :
    s'.held n + s.dropped n a + (if n < s.clients then 1 else 0) =
      s.held n + if n < s'.clients then 1 else 0 := by
  -- a descriptor that is free has no poll entry, so an insertion adds one
  have hfresh : ∀ fd, s.poll.fds.lookup fd = none → fd ∉ s.poll.entry_map := fun fd hfree =>
    not_mem_of_lookup (h.owned.lookup_none hfree)
  cases hm with
  -- in each case the client moves from one place to another, or goes with the expired ones
  | acceptFollower fd pid hfree =>
    simp [held, dropped, values_insert (hfresh fd hfree)]
  | acceptClient fd hfree =>
    simp only [held, dropped, values_insert (hfresh fd hfree), List.count_cons, beq_iff_eq,
      Socket.client.injEq]
    split_ifs <;> omega
  | stored fd conn d now order hentry =>
    simp only [held, dropped, Poll.remove, List.map_cons, List.count_cons, beq_iff_eq,
      count_erase_entry hentry, Socket.client.injEq]
    omega
  | forwarded fd conn d now order f hentry =>
    simp only [held, dropped, setDialogue_frame, List.count_cons, beq_iff_eq,
      count_erase_entry hentry, Socket.client.injEq]
    omega
  | ignored pid d now hreg => simp [held, dropped, hreg]
  | notified pid d now f hf hpid hreg hnone =>
    simp only [held, dropped, setDialogue_frame, hreg, Option.isSome_some, if_true,
      count_scan d now s.list_client n, hnone, Option.toList_none, List.map_nil, List.count_nil]
    omega
  | fetched pid d now f c hf hpid hreg hsome =>
    simp only [held, dropped, setDialogue_frame, hreg, Option.isSome_some, if_true,
      count_scan d now s.list_client n, hsome, Option.toList_some, List.map_cons, List.map_nil,
      List.count_cons, List.count_nil, beq_iff_eq, Socket.client.injEq]
    omega
  | clientHungUp fd conn hentry =>
    simp only [held, dropped, List.count_cons, beq_iff_eq, count_erase_entry hentry,
      Socket.client.injEq]
    omega
  | followerHungUp fd f hf hfd hentry =>
    simp only [held, dropped, List.count_cons, beq_iff_eq, count_erase_entry hentry,
      reduceCtorEq, if_false, Nat.add_zero]

namespace Sound

/-- No client is held, or has been closed, twice. -/
theorem held_le_one (h : Sound s) (n : Nat) : s.held n ≤ 1 := by
  have honce := h.once n
  split_ifs at honce <;> omega

/-- A client with a poll entry is not in `list_client`. -/
theorem conn_ne (h : Sound s) {fd n : Nat} (hentry : s.poll.entry_map.lookup fd = some (.client n))
    {c : ClientInfo} (hc : c ∈ s.list_client) : c.conn ≠ n := by
  rintro rfl
  have hentries : 0 < (values s.poll.entry_map).count (.client c.conn) :=
    List.count_pos_iff.mpr (mem_values.mpr ⟨fd, hentry⟩)
  have hlist : 0 < (s.list_client.map (·.conn)).count c.conn :=
    List.count_pos_iff.mpr (List.mem_map_of_mem hc)
  have honce := h.held_le_one c.conn
  rw [held] at honce
  omega

/-- The descriptor of a waiting client has no poll entry. -/
theorem lookup_fd_none (h : Sound s) {c : ClientInfo} (hc : c ∈ s.list_client) :
    s.poll.entry_map.lookup c.fd = none := by
  cases hentry : s.poll.entry_map.lookup c.fd with
  | none => rfl
  | some e =>
    have hfds := h.owned c.fd e hentry
    rw [h.opened c hc, Option.some.injEq] at hfds
    subst hfds
    exact absurd rfl (h.conn_ne hentry hc)

/-- Erasing the entry of a client leaves those of the followers alone. -/
theorem entry_erase (h : Sound s) {fd conn : Nat}
    (hentry : s.poll.entry_map.lookup fd = some (.client conn)) (k n : Nat) :
    (s.poll.entry_map.erase fd).lookup k = some (.follower n) ↔ ∃ pid, (n, pid, k) ∈ s.idents := by
  rw [lookup_erase_eq_some, h.entry k n, and_iff_right_iff_imp]
  rintro ⟨pid, hid⟩ rfl
  rw [(h.entry k n).mpr ⟨pid, hid⟩] at hentry
  cases hentry

/-- The clients in `list_client` keep their descriptors when a socket is accepted. -/
theorem opened_insert (h : Sound s) {fd : Nat} (hfree : s.poll.fds.lookup fd = none) (e : Socket)
    {c : ClientInfo} (hc : c ∈ s.list_client) :
    (s.poll.fds.insert fd e).lookup c.fd = some (.client c.conn) := by
  refine lookup_insert_eq_some.mpr (.inr ⟨?_, h.opened c hc⟩)
  rintro rfl
  rw [h.opened c hc] at hfree
  cases hfree

/-- The clients in `list_client` keep their descriptors when the entry of `fd` is erased. -/
theorem opened_erase (h : Sound s) {fd : Nat} {e : Socket}
    (hentry : s.poll.entry_map.lookup fd = some e) {c : ClientInfo} (hc : c ∈ s.list_client) :
    (s.poll.fds.erase fd).lookup c.fd = some (.client c.conn) := by
  refine lookup_erase_eq_some.mpr ⟨?_, h.opened c hc⟩
  rintro rfl
  rw [h.lookup_fd_none hc] at hentry
  cases hentry

/-- The clients that stay after one was published keep their descriptors, as these are different
    from the one that was closed. -/
theorem opened_kept (h : Sound s) {d : Int32} {now : ℚ} {c e : ClientInfo}
    (hsome : (scan d now s.list_client).matched = some c)
    (he : e ∈ (scan d now s.list_client).kept) :
    (s.poll.fds.erase c.fd).lookup e.fd = some (.client e.conn) := by
  have hmem : e ∈ s.list_client := mem_of_mem_kept he
  refine lookup_erase_eq_some.mpr ⟨fun hfd => ?_, h.opened e hmem⟩
  have hc := h.opened c (scan_matched hsome).1
  rw [← hfd, h.opened e hmem, Option.some.injEq, Socket.client.injEq] at hc
  -- then `list_client` would hold that client twice
  have hkept : 0 < ((scan d now s.list_client).kept.map (·.conn)).count c.conn :=
    List.count_pos_iff.mpr (List.mem_map.mpr ⟨e, he, hc⟩)
  have honce := h.held_le_one c.conn
  have hcount := count_scan d now s.list_client c.conn
  rw [held] at honce
  rw [hsome, Option.toList_some, List.map_singleton, List.count_singleton_self] at hcount
  omega

end Sound

/-- **No client is held twice**: each of them is at one place at most, before and after a move. -/
theorem once_move (h : Sound s) {a : Act} (hm : Move s a s') (n : Nat) :
    s'.held n ≤ if n < s'.clients then 1 else 0 := by
  have hheld := held_move h hm n
  have honce := h.once n
  omega

/-- An event that is about a client leaves the followers alone: their list, their map and their poll
    entries are as before. -/
theorem Sound.frame (h : Sound s) (hid : s'.idents = s.idents)
    (hmap : s'.map_follower = s.map_follower) (hfollowers : s'.followers = s.followers)
    (hdefined : s'.undefined = s.undefined)
    (hentry : ∀ k n, s'.poll.entry_map.lookup k = some (.follower n) ↔
      ∃ pid, (n, pid, k) ∈ s.idents)
    (howned : s'.poll.Owned)
    (hopened : ∀ c ∈ s'.list_client, s'.poll.fds.lookup c.fd = some (.client c.conn))
    (honce : ∀ n, s'.held n ≤ if n < s'.clients then 1 else 0) : Sound s' where
  defined := hdefined.trans h.defined
  nodes := hid ▸ h.nodes
  node_lt := by
    rw [hid, hfollowers]
    exact h.node_lt
  entry := by
    rw [hid]
    exact hentry
  live := by
    rw [hid, hmap]
    exact h.live
  owned := howned
  opened := hopened
  once := honce

/-- A new follower has a node and a descriptor of its own, and the map has its pid, with its node or
    with that of an earlier follower. -/
theorem sound_acceptFollower (h : Sound s) {fd : Nat} {pid : Int32}
    (hm : Move s (.acceptFollower fd pid) s') : Sound s' := by
  have honce := once_move h hm
  cases hm with
  | acceptFollower _ _ hfree =>
    refine ⟨h.defined, ?_, ?_, ?_, ?_, Poll.owned_insert h.owned, ?_, honce⟩
    -- the number of the new node is larger than all before
    · refine List.nodup_cons.mpr ⟨fun hmem => ?_, h.nodes⟩
      obtain ⟨i, hi, hlt⟩ := List.mem_map.mp hmem
      exact absurd hlt (h.node_lt i hi).ne
    · intro i hi
      rcases List.mem_cons.mp hi with rfl | hi
      · exact Nat.lt_succ_self _
      · exact (h.node_lt i hi).trans (Nat.lt_succ_self _)
    · intro k n
      show (s.poll.entry_map.insert fd _).lookup k = _ ↔
        ∃ p, (n, p, k) ∈ (s.followers, pid, fd) :: s.idents
      rw [lookup_insert_eq_some, h.entry k n]
      constructor
      · rintro (⟨rfl, heq⟩ | ⟨-, p, hid⟩)
        · rw [Socket.follower.injEq] at heq
          exact ⟨pid, by simp [heq]⟩
        · exact ⟨p, List.mem_cons_of_mem _ hid⟩
      · rintro ⟨p, hid⟩
        rcases List.mem_cons.mp hid with heq | hold
        · cases heq
          exact .inl ⟨rfl, rfl⟩
        -- the descriptor was free, so no other follower has it
        · refine .inr ⟨?_, p, hold⟩
          rintro rfl
          rw [h.owned k _ ((h.entry k n).mpr ⟨p, hold⟩)] at hfree
          cases hfree
    -- `insert` keeps the iterator that the map has for the pid
    · intro p n hreg
      rcases lookup_insertNew_eq_some.mp hreg with hold | ⟨rfl, rfl, -⟩
      · obtain ⟨k, hid⟩ := h.live p n hold
        exact ⟨k, List.mem_cons_of_mem _ hid⟩
      · exact ⟨fd, List.mem_cons_self⟩
    · exact fun c hc => h.opened_insert hfree _ hc

/-- A follower that quits takes its node, its key and its entry with it; no iterator to the node is
    left in the map. -/
theorem sound_followerHungUp (h : Sound s) {fd : Nat} {f : FollowerContext}
    (hf : f ∈ s.list_follower) (hfd : f.fd = fd)
    (hentry : s.poll.entry_map.lookup fd = some (.follower f.node)) :
    Sound { s with
            list_follower := s.list_follower.erase f
            map_follower := s.map_follower.erase f.pid
            poll := { entry_map := s.poll.entry_map.erase fd, fds := s.poll.fds.erase fd,
                      closed := .follower f.node :: s.poll.closed } } := by
  have honce := once_move h (.followerHungUp fd f hf hfd hentry)
  -- the list is the follower that goes and the others
  have hperm : s.idents.Perm (ident f :: (s.list_follower.erase f).map ident) :=
    (List.perm_cons_erase hf).map ident
  have hnodes := (hperm.map Prod.fst).nodup_iff.mp h.nodes
  rw [List.map_cons, List.nodup_cons] at hnodes
  have hmem : ∀ {i}, i ∈ (s.list_follower.erase f).map ident → i ∈ s.idents := fun hi =>
    hperm.mem_iff.mpr (List.mem_cons_of_mem _ hi)
  refine ⟨h.defined, hnodes.2, fun i hi => h.node_lt i (hmem hi), ?_, ?_,
    Poll.owned_erase h.owned, fun c hc => h.opened_erase hentry hc, honce⟩
  · intro k n
    show (s.poll.entry_map.erase fd).lookup k = _ ↔
      ∃ p, (n, p, k) ∈ (s.list_follower.erase f).map ident
    rw [lookup_erase_eq_some, h.entry k n]
    constructor
    · rintro ⟨hne, p, hid⟩
      rcases List.mem_cons.mp (hperm.mem_iff.mp hid) with heq | hid
      · cases heq
        exact absurd hfd hne
      · exact ⟨p, hid⟩
    · rintro ⟨p, hid⟩
      -- no other follower has the descriptor of the entry
      refine ⟨?_, p, hmem hid⟩
      rintro rfl
      have heq := (h.entry k n).mpr ⟨p, hmem hid⟩
      rw [hentry, Option.some.injEq, Socket.follower.injEq] at heq
      exact hnodes.1 (List.mem_map.mpr ⟨_, hid, heq.symm⟩)
  -- the iterator of its pid goes from the map, whether it was this follower's or not
  · intro p n hreg
    obtain ⟨hne, hold⟩ := lookup_erase_eq_some.mp hreg
    obtain ⟨k, hid⟩ := h.live p n hold
    rcases List.mem_cons.mp (hperm.mem_iff.mp hid) with heq | hid
    · cases heq
      exact absurd rfl hne
    · exact ⟨k, hid⟩

/-- **Every event keeps the invariant**; the two cases with an argument of their own are a new
    follower and one that hangs up. -/
theorem sound_move (h : Sound s) {a : Act} (hm : Move s a s') : Sound s' := by
  have honce := once_move h hm
  cases hm with
  | acceptFollower fd pid hfree => exact sound_acceptFollower h (.acceptFollower fd pid hfree)
  | acceptClient fd hfree =>
    refine h.frame rfl rfl rfl rfl (fun k n => ?_) (Poll.owned_insert h.owned)
      (fun c hc => h.opened_insert hfree _ hc) honce
    rw [lookup_insert_eq_some, h.entry k n]
    simp only [reduceCtorEq, and_false, false_or, and_iff_right_iff_imp]
    -- no entry of a follower has the descriptor, which was free
    rintro ⟨p, hid⟩ rfl
    rw [h.owned k _ ((h.entry k n).mpr ⟨p, hid⟩)] at hfree
    cases hfree
  | stored fd conn d now order hentry hno =>
    refine h.frame rfl rfl rfl rfl (h.entry_erase hentry) ?_ ?_ honce
    · intro k e hk
      exact h.owned k e (lookup_erase_eq_some.mp hk).2
    · intro c hc
      rcases List.mem_cons.mp hc with rfl | hc
      · exact h.owned fd _ hentry
      · exact h.opened c hc
  | forwarded fd conn d now order f hentry hf hreg hd =>
    exact h.frame (idents_setDialogue _ _) rfl rfl rfl (h.entry_erase hentry)
      (Poll.owned_erase h.owned) (fun c hc => h.opened_erase hentry hc) honce
  | ignored pid d now hreg => exact h
  | notified pid d now f hf hpid hreg hnone =>
    refine h.frame (idents_setDialogue _ _) rfl rfl rfl h.entry h.owned (fun c hc => ?_) honce
    exact h.opened c (mem_of_mem_kept hc)
  | fetched pid d now f c hf hpid hreg hsome =>
    refine h.frame (idents_setDialogue _ _) rfl rfl rfl h.entry ?_
      (fun e he => h.opened_kept hsome he) honce
    intro k e hk
    refine lookup_erase_eq_some.mpr ⟨?_, h.owned k e hk⟩
    -- the descriptor of the client is closed, and no entry has it
    rintro rfl
    rw [h.lookup_fd_none (scan_matched hsome).1] at hk
    cases hk
  | clientHungUp fd conn hentry =>
    exact h.frame rfl rfl rfl rfl (h.entry_erase hentry) (Poll.owned_erase h.owned)
      (fun c hc => h.opened_erase hentry hc) honce
  | followerHungUp fd f hf hfd hentry => exact sound_followerHungUp h hf hfd hentry

/-- **Every event keeps the tables sound.** -/
theorem sound_step {a : Act} (h : Sound s) (hst : s.step a = some s') : Sound s' :=
  sound_move h (move_of_step h hst)

/-- The tables are sound in every run. -/
theorem sound_of_exec {acts : List Act} (hrun : exec step init acts = some s) : Sound s :=
  exec_invariant (fun _ _ _ => sound_step) sound_init hrun

end CPlayground.Monitor.Forwarder
