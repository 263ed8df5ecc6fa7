import CPlayground.Monitor.Forwarder.Moves

namespace CPlayground.Monitor.Forwarder

open CPlayground.Table CPlayground.Trace

/-!
# Who owns what: client descriptors and the index of the followers

* `client_descriptors_owned` — in a run where `handle_notify` never meets an expired client, every
  accepted client is held by one poll entry or by one element of `list_client`, or has been closed
  once.  An expired client is erased without a `close`, see `expired_client_leaks`.
* `map_follower_indexes` — in a run where no two followers have the same pid, `map_follower` is an
  index of `list_follower`.  `insert` keeps an entry that is there, so a second follower with the
  same pid is not in the map, see `same_pid_unreachable`.
-/

variable {s s' : Forwarder}

/-! ### Client descriptors -/

/-- Client `n` is held once or has been closed once, and whoever holds it holds its descriptor,
    under the number that it was accepted with. -/
structure Accounted (s : Forwarder) (n : Nat) : Prop where
  once : s.held n = 1
  entry : ∀ fd, s.poll.entry_map.lookup fd = some (.client n) →
    s.poll.fds.lookup fd = some (.client n)
  listed : ∀ c ∈ s.list_client, c.conn = n → s.poll.fds.lookup c.fd = some (.client n)

/-- `handle_notify` would publish this client. -/
def publishable (d : Int32) (now : ℚ) (c : ClientInfo) : Bool :=
  c.dialogue = d && now - c.timestamp ≤ CLIENTINFO_EXPIREDTHRESHOLD

/-- At a notification of a registered follower, no client in front of the first one that can be
    published has waited too long. -/
def NoneExpired (s : Forwarder) : Act → Prop
  | .notify pid d now => s.map_follower.lookup pid ≠ none →
      ∀ c ∈ s.list_client.takeWhile (fun c => !publishable d now c),
        now - c.timestamp ≤ CLIENTINFO_EXPIREDTHRESHOLD
  | _ => True

instance decidableNoneExpired (s : Forwarder) : (a : Act) → Decidable (NoneExpired s a)
  | .notify .. => inferInstanceAs (Decidable (_ → ∀ c ∈ _, _))
  | .acceptFollower .. | .acceptClient _ | .peekHeader .. | .hangup _ => .isTrue trivial

/-- A scan that meets no expired client erases none: it stops at the client that it publishes. -/
theorem invalid_eq_nil {d : Int32} {now : ℚ} {l : List ClientInfo}
    (h : ∀ c ∈ l.takeWhile (fun c => !publishable d now c),
      now - c.timestamp ≤ CLIENTINFO_EXPIREDTHRESHOLD) : (scan d now l).invalid = [] := by
  induction l with
  | nil => rfl
  | cons c cs ih =>
    cases hc : publishable d now c with
    | true =>
      obtain ⟨hd, hfresh⟩ := Bool.and_eq_true_iff.mp hc
      rw [scan, if_neg (not_lt.mpr (of_decide_eq_true hfresh)), if_pos (of_decide_eq_true hd)]
    | false =>
      rw [List.takeWhile_cons_of_pos (by rw [hc]; rfl)] at h
      have hfresh := h c List.mem_cons_self
      have hd : c.dialogue ≠ d := by
        intro hd
        simp [publishable, hd, hfresh] at hc
      rw [scan, if_neg (not_lt.mpr hfresh), if_neg hd]
      exact ih fun e he => h e (List.mem_cons_of_mem _ he)

/-- So no descriptor is dropped. -/
theorem dropped_eq_zero {a : Act} (h : NoneExpired s a) (n : Nat) : s.dropped n a = 0 := by
  cases a with
  | notify pid d now =>
    rw [dropped]
    split
    · rename_i hreg
      rw [invalid_eq_nil (h (Option.isSome_iff_ne_none.mp hreg))]
      rfl
    · rfl
  | acceptFollower fd pid => rfl
  | acceptClient fd => rfl
  | peekHeader fd d now order => rfl
  | hangup fd => rfl

/-- **Descriptor ownership.**  In every run where no notification meets an expired client, every
    accepted client is in the poll entries or in `list_client`, once, or has been closed, once. -/
theorem client_descriptors_owned (acts : List Act) (s : Forwarder)
    (hrun : exec step init acts = some s) (hexpired : Along step NoneExpired init acts) :
    ∀ n < s.clients, Accounted s n := by
  have hinv : Sound s ∧ ∀ n, s.held n = if n < s.clients then 1 else 0 := by
    refine exec_invariants_along (Q := fun s => ∀ n, s.held n = if n < s.clients then 1 else 0)
      (fun _ _ _ => sound_step) ?_ sound_init (fun n => rfl) hexpired hrun
    intro s a s' hs hheld hok hst n
    have hmove := held_move hs (move_of_step hs hst) n
    rw [dropped_eq_zero hok n, hheld n] at hmove
    omega
  intro n hn
  refine ⟨?_, fun fd hfd => hinv.1.owned fd _ hfd, ?_⟩
  · rw [hinv.2 n, if_pos hn]
  · rintro c hc rfl
    exact hinv.1.opened c hc

/-- A follower asks for dialogue 2 while a client with dialogue 1 has waited six seconds. -/
def expiry : List Act :=
  [.acceptFollower 3 7, .acceptClient 4, .peekHeader 4 1 0 [0], .notify 7 2 6000]

/-- The client is in no poll entry and no longer in `list_client`, and was not closed. -/
theorem expired_client_leaks : ∃ s, exec step init expiry = some s ∧ 0 < s.clients ∧
    ¬ Accounted s 0 ∧ s.poll.fds.lookup 4 = some (.client 0) := by
  obtain ⟨s, hrun, htest⟩ := exists_of_exec_any
    (show (exec step init expiry).any (fun s => decide (0 < s.clients) && (s.held 0 == 0 &&
      s.poll.fds.lookup 4 == some (.client 0))) = true by decide +kernel)
  simp only [Bool.and_eq_true, beq_iff_eq, decide_eq_true_eq] at htest
  obtain ⟨hclients, hheld, hopen⟩ := htest
  refine ⟨s, hrun, hclients, fun hacc => ?_, hopen⟩
  have honce := hacc.once
  omega

/-- The same requests, one second after the client. -/
def intime : List Act :=
  [.acceptFollower 3 7, .acceptClient 4, .peekHeader 4 1 0 [0], .notify 7 2 1000, .notify 7 1 1000]

/-- A client that is handed over in time is accounted for. -/
theorem client_descriptors_owned_intime : ∃ s, exec step init intime = some s ∧
    0 < s.clients ∧ Accounted s 0 := by
  obtain ⟨s, hrun, htest⟩ := exists_of_exec_any
    (show (exec step init intime).any (fun s => 0 < s.clients) = true by decide +kernel)
  have hclients : 0 < s.clients := of_decide_eq_true htest
  refine ⟨s, hrun, hclients, client_descriptors_owned intime s hrun ?_ 0 hclients⟩
  decide +kernel

/-! ### The index of the followers -/

/-- `map_follower` is an index of `list_follower`: its iterators point to live elements with their
    pids, and every element is found through it. -/
structure Indexed (s : Forwarder) : Prop where
  live : ∀ pid node, s.map_follower.lookup pid = some node →
    ∃ f ∈ s.list_follower, f.node = node ∧ f.pid = pid
  reachable : ∀ f ∈ s.list_follower, s.map_follower.lookup f.pid = some f.node

/-- A follower that registers has a pid of its own. -/
def NewPid (s : Forwarder) : Act → Prop
  | .acceptFollower _ pid => ∀ f ∈ s.list_follower, f.pid ≠ pid
  | _ => True

instance decidableNewPid (s : Forwarder) : (a : Act) → Decidable (NewPid s a)
  | .acceptFollower .. => inferInstanceAs (Decidable (∀ f ∈ _, _))
  | .acceptClient _ | .peekHeader .. | .notify .. | .hangup _ => .isTrue trivial

/-- A new follower is in the map if its pid is new; the others stay where they are. -/
theorem reachable_move (h : Sound s) {a : Act} (hpid : NewPid s a) (hm : Move s a s')
    (hreach : ∀ i ∈ s.idents, s.map_follower.lookup i.2.1 = some i.1) :
    ∀ i ∈ s'.idents, s'.map_follower.lookup i.2.1 = some i.1 := by
  cases hm with
  | acceptFollower fd pid hfree =>
    intro i hi
    rw [lookup_insertNew_eq_some]
    rcases List.mem_cons.mp hi with rfl | hi
    · refine .inr ⟨rfl, rfl, ?_⟩
      -- an entry for the pid would point to a follower with that pid
      cases hreg : s.map_follower.lookup pid with
      | none => rfl
      | some n =>
        obtain ⟨f, hf, -, hfpid⟩ := h.exists_follower hreg
        exact absurd hfpid (hpid f hf)
    · exact .inl (hreach i hi)
  | followerHungUp fd f hf hfd hentry =>
    intro i hi
    obtain ⟨g, hg, rfl⟩ := List.mem_map.mp hi
    have hgmem := List.mem_of_mem_erase hg
    refine lookup_erase_eq_some.mpr ⟨fun hgpid => ?_, hreach _ (ident_mem_idents hgmem)⟩
    -- two followers with the same entry are one follower
    have hg' : s.map_follower.lookup g.pid = some g.node := hreach _ (ident_mem_idents hgmem)
    have hf' : s.map_follower.lookup f.pid = some f.node := hreach _ (ident_mem_idents hf)
    rw [show g.pid = f.pid from hgpid, hf', Option.some.injEq] at hg'
    obtain rfl := h.eq_of_node hf hgmem hg'
    have hnodup : s.list_follower.Nodup := (h.nodes.of_map _).of_map _
    exact hnodup.not_mem_erase hg
  | acceptClient fd hfree => exact hreach
  | stored fd conn d now order hentry hno => exact hreach
  | ignored pid d now hreg => exact hreach
  | clientHungUp fd conn hentry => exact hreach
  | forwarded fd conn d now order f hentry hf hreg hd =>
    intro i hi
    exact hreach i (idents_setDialogue f.node (-1) ▸ hi)
  | notified pid d now f hf hp hreg hnone =>
    intro i hi
    exact hreach i (idents_setDialogue f.node d ▸ hi)
  | fetched pid d now f c hf hp hreg hsome =>
    intro i hi
    exact hreach i (idents_setDialogue f.node (-1) ▸ hi)

/-- **Index consistency.**  In every run where each follower registers with a pid that no other
    follower has, `map_follower` is an index of `list_follower`. -/
theorem map_follower_indexes (acts : List Act) (s : Forwarder)
    (hrun : exec step init acts = some s) (hpids : Along step NewPid init acts) : Indexed s := by
  have hinv : Sound s ∧ ∀ i ∈ s.idents, s.map_follower.lookup i.2.1 = some i.1 :=
    exec_invariants_along (Q := fun s => ∀ i ∈ s.idents, s.map_follower.lookup i.2.1 = some i.1)
      (fun _ _ _ => sound_step)
      (fun _ _ _ hs hreach hok hst => reachable_move hs hok (move_of_step hs hst) hreach)
      sound_init nofun hpids hrun
  exact ⟨fun pid node => hinv.1.exists_follower, fun f hf => hinv.2 _ (ident_mem_idents hf)⟩

/-- Two followers, one of which quits; the map has the other one. -/
theorem map_follower_indexes_two : ∃ s,
    exec step init [.acceptFollower 3 7, .acceptFollower 4 8, .hangup 3] = some s ∧
      s.list_follower ≠ [] ∧ Indexed s := by
  obtain ⟨s, hrun, htest⟩ := exists_of_exec_any
    (show (exec step init [.acceptFollower 3 7, .acceptFollower 4 8, .hangup 3]).any
      (fun s => s.list_follower ≠ []) = true by decide +kernel)
  exact ⟨s, hrun, of_decide_eq_true htest, map_follower_indexes _ s hrun (by decide +kernel)⟩

/-- Two followers with pid 7: only the first is in the map. -/
theorem same_pid_unreachable : ∃ s,
    exec step init [.acceptFollower 3 7, .acceptFollower 4 7] = some s ∧ ¬ Indexed s := by
  obtain ⟨s, hrun, htest⟩ := exists_of_exec_any
    (show (exec step init [.acceptFollower 3 7, .acceptFollower 4 7]).any
      (fun s => s.list_follower.any fun f => s.map_follower.lookup f.pid ≠ some f.node) = true by
        decide +kernel)
  obtain ⟨f, hf, hlost⟩ := List.any_eq_true.mp htest
  exact ⟨s, hrun, fun h => of_decide_eq_true hlost (h.reachable f hf)⟩

end CPlayground.Monitor.Forwarder
