import CPlayground.Monitor.Forwarder.Moves
import Mathlib.Tactic.Linarith

namespace CPlayground.Monitor.Forwarder

open CPlayground.Table CPlayground.Trace

/-!
# Any order will do

Some registered followers each ask for one client, and the clients come, in any order.

* `forwarder_confluent` — if no client has to wait too long, then in the end each client has gone to
  the follower that asked for it, no follower waits and `list_client` is empty.

The state in between is described by what is still to come: the notifications `notes` and the
headers `headers`.  A job is a pid and a dialogue; of each job, either both events are to come, or
the follower waits, or the client waits, or it is done (`Pending`).
-/

variable {s s' : Forwarder} {jobs : List (Int32 × Int32)}

/-! ### The events of a list of jobs -/

/-- The pids and dialogues of the notifications, in order. -/
def notifications (acts : List Act) : List (Int32 × Int32) :=
  acts.filterMap fun
    | .notify pid d _ => some (pid, d)
    | _ => none

/-- The dialogues of the headers, in order. -/
def headers (acts : List Act) : List Int32 :=
  acts.filterMap fun
    | .peekHeader _ d _ _ => some d
    | _ => none

/-- The clients in the log, with the pids they were published to. -/
def deliveries (log : List Event) : List (Int32 × Int32) :=
  log.filterMap fun
    | .published f c => some (f.pid, c.dialogue)
    | .notified .. => none

/-- The notifications of a run. -/
theorem mem_notifications {acts : List Act} {pid d : Int32} :
    (pid, d) ∈ notifications acts ↔ ∃ now, .notify pid d now ∈ acts := by
  rw [notifications, List.mem_filterMap]
  constructor
  · rintro ⟨a, ha, heq⟩
    cases a with
    | notify p e now =>
      cases heq
      exact ⟨now, ha⟩
    | _ => cases heq
  · rintro ⟨now, ha⟩
    exact ⟨_, ha, rfl⟩

/-- A client that was published is a delivery. -/
@[simp] theorem deliveries_published (f : FollowerContext) (c : ClientInfo) (log : List Event) :
    deliveries (.published f c :: log) = (f.pid, c.dialogue) :: deliveries log := rfl

/-- A notification is not. -/
@[simp] theorem deliveries_notified (n : Nat) (d : Int32) (log : List Event) :
    deliveries (.notified n d :: log) = deliveries log := rfl

/-- A list of jobs with pids and dialogues of their own, none of them -1. -/
structure Jobs (jobs : List (Int32 × Int32)) : Prop where
  pids : (jobs.map Prod.fst).Nodup
  dialogues : (jobs.map Prod.snd).Nodup
  real : ∀ j ∈ jobs, j.2 ≠ -1

/-- A notification, a client that is accepted or the header of a client. -/
def Act.isNotifyOrClient : Act → Bool
  | .notify .. | .acceptClient _ | .peekHeader .. => true
  | .acceptFollower .. | .hangup _ => false

/-- The events of the jobs: each is notified once, and each client comes once, after its
    connection was accepted. -/
structure EventsOf (jobs : List (Int32 × Int32)) (acts : List Act) : Prop where
  notes : (notifications acts).Perm jobs
  headers : (headers acts).Perm (jobs.map Prod.snd)
  only : ∀ a ∈ acts, a.isNotifyOrClient = true

/-- The clock does not go back between notifications, and a client has not waited too long when its
    notification arrives. -/
def Timely : Act → Act → Prop
  | .notify _ _ t, .notify _ _ u => t ≤ u
  | .peekHeader _ d t _, .notify _ e u => d = e → u - t ≤ CLIENTINFO_EXPIREDTHRESHOLD
  | _, _ => True

/-! ### What is still to come -/

/-- The follower is the one `map_follower` has for its pid. -/
def Registered (s : Forwarder) (f : FollowerContext) : Prop :=
  s.map_follower.lookup f.pid = some f.node

/-- The state while the notifications `notes` and the headers `headers` are still to come; `log` is
    what has happened so far. -/
structure Pending (jobs notes : List (Int32 × Int32)) (headers : List Int32) (log : List Event)
    (s : Forwarder) : Prop where
  registered : ∀ j ∈ jobs, s.map_follower.lookup j.1 ≠ none
  notes_sub : ∀ j ∈ notes, j ∈ jobs
  notes_nodup : notes.Nodup
  headers_sub : ∀ d ∈ headers, d ∈ jobs.map Prod.snd
  headers_nodup : headers.Nodup
  /-- The clients in `list_client` are those whose notification is still to come. -/
  client : ∀ c ∈ s.list_client, c.dialogue ∉ headers ∧ ∃ pid, (pid, c.dialogue) ∈ notes
  stored : ∀ j ∈ notes, j.2 ∉ headers → ∃ c ∈ s.list_client, c.dialogue = j.2
  distinct : (s.list_client.map (·.dialogue)).Nodup
  /-- The followers that wait are those whose client is still to come. -/
  waiting : ∀ f ∈ s.list_follower, f.dialogue ≠ -1 → Registered s f ∧
    (f.pid, f.dialogue) ∈ jobs ∧ (f.pid, f.dialogue) ∉ notes ∧ f.dialogue ∈ headers
  asked : ∀ j ∈ jobs, j ∉ notes → j.2 ∈ headers →
    ∃ f ∈ s.list_follower, Registered s f ∧ f.pid = j.1 ∧ f.dialogue = j.2
  /-- The others are done. -/
  done : ∀ j, j ∈ deliveries log ↔ j ∈ jobs ∧ j ∉ notes ∧ j.2 ∉ headers
  done_nodup : (deliveries log).Nodup
  published : ∀ f c, .published f c ∈ log → Registered s f

namespace Jobs

/-- A follower has one job. -/
theorem eq_of_pid (h : Jobs jobs) {i j : Int32 × Int32} (hi : i ∈ jobs) (hj : j ∈ jobs)
    (heq : i.1 = j.1) : i = j := List.inj_on_of_nodup_map h.pids hi hj heq

/-- A dialogue belongs to one job. -/
theorem eq_of_dialogue (h : Jobs jobs) {i j : Int32 × Int32} (hi : i ∈ jobs) (hj : j ∈ jobs)
    (heq : i.2 = j.2) : i = j := List.inj_on_of_nodup_map h.dialogues hi hj heq

end Jobs

namespace Pending

variable {notes : List (Int32 × Int32)} {pid d : Int32} {log : List Event} {hs : List Int32}

/-- Only registered followers get a client. -/
theorem published_cons {f : FollowerContext} {c : ClientInfo} (hreg : Registered s f)
    (h : ∀ g e, .published g e ∈ log → Registered s g) :
    ∀ g e, .published g e ∈ Event.published f c :: log → Registered s g := by
  intro g e hmem
  rcases List.mem_cons.mp hmem with heq | hmem
  · cases heq
    exact hreg
  · exact h g e hmem

/-- A client comes before its notification: nobody waits for it, and it is stored. -/
theorem store (hj : Jobs jobs) (h : Pending jobs notes (d :: hs) log s) (c : ClientInfo)
    (hc : c.dialogue = d) (hno : ∀ f ∈ s.list_follower, Registered s f → f.dialogue ≠ d)
    (p : Poll Socket) :
    Pending jobs notes hs log { s with list_client := c :: s.list_client, poll := p } := by
  obtain ⟨hd, hnodup⟩ := List.nodup_cons.mp h.headers_nodup
  -- the notification is still to come, or a follower would wait for the client
  obtain ⟨j, hjob, hjd⟩ := List.mem_map.mp (h.headers_sub d List.mem_cons_self)
  have hnote : j ∈ notes := by
    by_contra hnote
    obtain ⟨f, hf, hreg, -, hfd⟩ := h.asked j hjob hnote (hjd ▸ List.mem_cons_self)
    exact hno f hf hreg (hfd.trans hjd)
  refine ⟨h.registered, h.notes_sub, h.notes_nodup, fun e he => h.headers_sub e
    (List.mem_cons_of_mem _ he), hnodup, ?_, ?_, ?_, ?_, ?_, ?_, h.done_nodup, h.published⟩
  · intro e he
    rcases List.mem_cons.mp he with rfl | he
    · exact ⟨hc ▸ hd, j.1, by rwa [hc, ← hjd]⟩
    · obtain ⟨hnot, hpid⟩ := h.client e he
      exact ⟨fun hmem => hnot (List.mem_cons_of_mem _ hmem), hpid⟩
  · intro i hi hnot
    by_cases hid : i.2 = d
    · exact ⟨c, List.mem_cons_self, hc.trans hid.symm⟩
    · obtain ⟨e, he, hed⟩ := h.stored i hi (by simp [hid, hnot])
      exact ⟨e, List.mem_cons_of_mem _ he, hed⟩
  · refine List.nodup_cons.mpr ⟨fun hmem => ?_, h.distinct⟩
    obtain ⟨e, he, hed⟩ := List.mem_map.mp hmem
    exact (h.client e he).1 (List.mem_cons.mpr (.inl (hed.trans hc)))
  · intro f hf hwaits
    obtain ⟨hreg, hjob, hnot, hmem⟩ := h.waiting f hf hwaits
    exact ⟨hreg, hjob, hnot, (List.mem_cons.mp hmem).resolve_left (hno f hf hreg)⟩
  · intro i hi hnot hmem
    exact h.asked i hi hnot (List.mem_cons_of_mem _ hmem)
  · intro i
    rw [h.done i, List.mem_cons, not_or]
    refine and_congr_right fun hi => and_congr_right fun hnot => and_iff_right fun hid => ?_
    exact hnot (hj.eq_of_dialogue hi hjob (hid.trans hjd.symm) ▸ hnote)

/-- A client comes after its notification: the follower that waits for it gets it, and waits no
    more. -/
theorem forward (hj : Jobs jobs) (hsound : Sound s) (h : Pending jobs notes (d :: hs) log s)
    (c : ClientInfo) (hc : c.dialogue = d) (f : FollowerContext) (hf : f ∈ s.list_follower)
    (hreg : Registered s f) (hfd : f.dialogue = d) (p : Poll Socket) (l : List Event) :
    Pending jobs notes hs (.published f c :: log)
      { s.setDialogue f.node (-1) with poll := p, log := l } := by
  obtain ⟨hd, hnodup⟩ := List.nodup_cons.mp h.headers_nodup
  obtain ⟨k, hkjob, hkd⟩ := List.mem_map.mp (h.headers_sub d List.mem_cons_self)
  have hwaits : f.dialogue ≠ -1 := by
    rw [hfd, ← hkd]
    exact hj.real k hkjob
  obtain ⟨-, hjob, hnote, -⟩ := h.waiting f hf hwaits
  rw [hfd] at hjob hnote
  refine ⟨h.registered, h.notes_sub, h.notes_nodup, fun e he => h.headers_sub e
    (List.mem_cons_of_mem _ he), hnodup, ?_, ?_, h.distinct, ?_, ?_, ?_, ?_, ?_⟩
  · intro e he
    obtain ⟨hnot, hpid⟩ := h.client e he
    exact ⟨fun hmem => hnot (List.mem_cons_of_mem _ hmem), hpid⟩
  · intro i hi hnot
    refine h.stored i hi (List.mem_cons.not.mpr (not_or.mpr ⟨fun hid => ?_, hnot⟩))
    exact hnote (hj.eq_of_dialogue (h.notes_sub i hi) hjob hid ▸ hi)
  · intro g hg hgwaits
    rcases mem_setDialogue.mp hg with ⟨_, -, -, rfl⟩ | ⟨hg, hne⟩
    · exact absurd rfl hgwaits
    · obtain ⟨hgreg, hgjob, hgnote, hgmem⟩ := h.waiting g hg hgwaits
      refine ⟨hgreg, hgjob, hgnote, (List.mem_cons.mp hgmem).resolve_left fun hgd => hne ?_⟩
      -- another follower that waits for this dialogue would have the same pid
      have hpid : g.pid = f.pid := congrArg Prod.fst (hj.eq_of_dialogue hgjob hjob hgd)
      have hgreg : s.map_follower.lookup g.pid = some g.node := hgreg
      rw [hpid, hreg, Option.some.injEq] at hgreg
      exact hgreg.symm
  · intro i hi hnot hmem
    obtain ⟨g, hg, hgreg, hgpid, hgd⟩ := h.asked i hi hnot (List.mem_cons_of_mem _ hmem)
    refine ⟨g, mem_setDialogue.mpr (.inr ⟨hg, fun hnode => ?_⟩), hgreg, hgpid, hgd⟩
    obtain rfl := hsound.eq_of_node hg hf hnode
    exact hd (hfd ▸ hgd ▸ hmem)
  · intro i
    rw [deliveries_published, hc, List.mem_cons, h.done i, List.mem_cons, not_or]
    constructor
    · rintro (rfl | ⟨hi, hnot, -, hmem⟩)
      · exact ⟨hjob, hnote, hd⟩
      · exact ⟨hi, hnot, hmem⟩
    · rintro ⟨hi, hnot, hmem⟩
      by_cases hid : i.2 = d
      · exact .inl (hj.eq_of_dialogue hi hjob hid)
      · exact .inr ⟨hi, hnot, hid, hmem⟩
  · rw [deliveries_published, hc]
    exact List.nodup_cons.mpr
      ⟨fun hmem => ((h.done _).mp hmem).2.2 List.mem_cons_self, h.done_nodup⟩
  · exact published_cons hreg h.published

/-- A notification comes before its client: no client has the dialogue, and the follower waits. -/
theorem wait (hj : Jobs jobs) (hsound : Sound s) (h : Pending jobs ((pid, d) :: notes) hs log s)
    (f : FollowerContext) (hf : f ∈ s.list_follower) (hpid : f.pid = pid) (hreg : Registered s f)
    (hno : ∀ c ∈ s.list_client, c.dialogue ≠ d) (l : List Event) :
    Pending jobs notes hs (.notified f.node d :: log) { s.setDialogue f.node d with log := l } := by
  obtain ⟨hnote, hnodup⟩ := List.nodup_cons.mp h.notes_nodup
  have hjob : (pid, d) ∈ jobs := h.notes_sub _ List.mem_cons_self
  -- the client is still to come, or it would be in the list
  have hd : d ∈ hs := by
    by_contra hd
    obtain ⟨c, hc, hcd⟩ := h.stored (pid, d) List.mem_cons_self hd
    exact hno c hc hcd
  refine ⟨h.registered, fun i hi => h.notes_sub i (List.mem_cons_of_mem _ hi), hnodup,
    h.headers_sub, h.headers_nodup, ?_, ?_, h.distinct, ?_, ?_, ?_, h.done_nodup, ?_⟩
  · intro c hc
    obtain ⟨hnot, q, hq⟩ := h.client c hc
    refine ⟨hnot, q, (List.mem_cons.mp hq).resolve_left fun heq => ?_⟩
    exact hno c hc (congrArg Prod.snd heq)
  · intro i hi
    exact h.stored i (List.mem_cons_of_mem _ hi)
  · intro g hg hwaits
    rcases mem_setDialogue.mp hg with ⟨g', hg', hnode, rfl⟩ | ⟨hg, -⟩
    · obtain rfl := hsound.eq_of_node hg' hf hnode
      exact ⟨hreg, hpid ▸ hjob, hpid ▸ hnote, hd⟩
    · obtain ⟨hgreg, hgjob, hgnote, hgmem⟩ := h.waiting g hg hwaits
      exact ⟨hgreg, hgjob, fun hmem => hgnote (List.mem_cons_of_mem _ hmem), hgmem⟩
  · intro i hi hnot hmem
    by_cases hid : i = (pid, d)
    · subst hid
      exact ⟨_, mem_setDialogue.mpr (.inl ⟨f, hf, rfl, rfl⟩), hreg, hpid, rfl⟩
    · obtain ⟨g, hg, hgreg, hgpid, hgd⟩ := h.asked i hi
        (List.mem_cons.not.mpr (not_or.mpr ⟨hid, hnot⟩)) hmem
      refine ⟨g, mem_setDialogue.mpr (.inr ⟨hg, fun hnode => hid ?_⟩), hgreg, hgpid, hgd⟩
      obtain rfl := hsound.eq_of_node hg hf hnode
      exact hj.eq_of_pid hi hjob (hgpid.symm.trans hpid)
  · intro i
    rw [deliveries_notified, h.done i, List.mem_cons, not_or]
    refine and_congr_right fun hi => and_congr_left fun hmem => and_iff_right ?_
    rintro rfl
    exact hmem hd
  · intro g e hmem
    rcases List.mem_cons.mp hmem with heq | hmem
    · cases heq
    · exact h.published g e hmem

/-- With distinct dialogues, erasing the first client with a dialogue erases the only one. -/
theorem mem_eraseP_dialogue {l : List ClientInfo} (hl : (l.map (·.dialogue)).Nodup)
    {e : ClientInfo} : e ∈ l.eraseP (fun c => c.dialogue = d) ↔ e ∈ l ∧ e.dialogue ≠ d := by
  induction l with
  | nil => simp
  | cons c l ih =>
    rw [List.map_cons, List.nodup_cons] at hl
    by_cases hc : c.dialogue = d
    · rw [List.eraseP_cons_of_pos (by simpa using hc), List.mem_cons]
      constructor
      · intro he
        exact ⟨.inr he, fun hed => hl.1 (List.mem_map.mpr ⟨e, he, hed.trans hc.symm⟩)⟩
      · rintro ⟨rfl | he, hed⟩
        · exact absurd hc hed
        · exact he
    · rw [List.eraseP_cons_of_neg (by simpa using hc), List.mem_cons, List.mem_cons, ih hl.2]
      constructor
      · rintro (rfl | ⟨he, hed⟩)
        · exact ⟨.inl rfl, hc⟩
        · exact ⟨.inr he, hed⟩
      · rintro ⟨rfl | he, hed⟩
        · exact .inl rfl
        · exact .inr ⟨he, hed⟩

/-- A notification comes after its client, which is in the list: the follower gets it at once. -/
theorem fetch (hj : Jobs jobs) (hsound : Sound s) (h : Pending jobs ((pid, d) :: notes) hs log s)
    (f : FollowerContext) (hf : f ∈ s.list_follower) (hpid : f.pid = pid) (hreg : Registered s f)
    (c : ClientInfo) (hc : s.list_client.find? (fun c => c.dialogue = d) = some c)
    (p : Poll Socket) (l : List Event) :
    Pending jobs notes hs (.published { f with dialogue := d } c :: .notified f.node d :: log)
      { s.setDialogue f.node (-1) with
        list_client := s.list_client.eraseP fun c => c.dialogue = d, poll := p, log := l } := by
  obtain ⟨hnote, hnodup⟩ := List.nodup_cons.mp h.notes_nodup
  have hjob : (pid, d) ∈ jobs := h.notes_sub _ List.mem_cons_self
  have hcd : c.dialogue = d := of_decide_eq_true (List.find?_some hc :)
  have hcmem := List.mem_of_find?_eq_some hc
  have hd : d ∉ hs := hcd ▸ (h.client c hcmem).1
  refine ⟨h.registered, fun i hi => h.notes_sub i (List.mem_cons_of_mem _ hi), hnodup,
    h.headers_sub, h.headers_nodup, ?_, ?_, ?_, ?_, ?_, ?_, ?_, ?_⟩
  -- the clients that are left: all but the one that was fetched
  · intro e he
    obtain ⟨he, hed⟩ := (mem_eraseP_dialogue h.distinct).mp he
    obtain ⟨hnot, q, hq⟩ := h.client e he
    exact ⟨hnot, q, (List.mem_cons.mp hq).resolve_left fun heq => hed (congrArg Prod.snd heq)⟩
  -- and they are still there for their notifications, which are not this one
  · intro i hi hnot
    obtain ⟨e, he, hed⟩ := h.stored i (List.mem_cons_of_mem _ hi) hnot
    refine ⟨e, (mem_eraseP_dialogue h.distinct).mpr ⟨he, fun hed' => hnote ?_⟩, hed⟩
    have hijob := h.notes_sub i (List.mem_cons_of_mem _ hi)
    exact hj.eq_of_dialogue hijob hjob (hed.symm.trans hed') ▸ hi
  · exact h.distinct.sublist (List.eraseP_sublist.map _)
  -- the follower has been served, and the others wait as before
  · intro g hg hwaits
    rcases mem_setDialogue.mp hg with ⟨_, -, -, rfl⟩ | ⟨hg, -⟩
    · exact absurd rfl hwaits
    · obtain ⟨hgreg, hgjob, hgnote, hgmem⟩ := h.waiting g hg hwaits
      exact ⟨hgreg, hgjob, fun hmem => hgnote (List.mem_cons_of_mem _ hmem), hgmem⟩
  · intro i hi hnot hmem
    have hid : i ≠ (pid, d) := by
      rintro rfl
      exact hd hmem
    obtain ⟨g, hg, hgreg, hgpid, hgd⟩ := h.asked i hi
      (List.mem_cons.not.mpr (not_or.mpr ⟨hid, hnot⟩)) hmem
    refine ⟨g, mem_setDialogue.mpr (.inr ⟨hg, fun hnode => hid ?_⟩), hgreg, hgpid, hgd⟩
    obtain rfl := hsound.eq_of_node hg hf hnode
    exact hj.eq_of_pid hi hjob (hgpid.symm.trans hpid)
  -- what is done: this job, and those before
  · intro i
    rw [deliveries_published, deliveries_notified, hpid, hcd, List.mem_cons, h.done i,
      List.mem_cons, not_or]
    constructor
    · rintro (rfl | ⟨hi, ⟨-, hnot⟩, hmem⟩)
      · exact ⟨hjob, hnote, hd⟩
      · exact ⟨hi, hnot, hmem⟩
    · rintro ⟨hi, hnot, hmem⟩
      by_cases hid : i = (pid, d)
      · exact .inl hid
      · exact .inr ⟨hi, ⟨hid, hnot⟩, hmem⟩
  · rw [deliveries_published, deliveries_notified, hpid, hcd]
    exact List.nodup_cons.mpr
      ⟨fun hmem => ((h.done _).mp hmem).2.1 List.mem_cons_self, h.done_nodup⟩
  · refine published_cons hreg fun g e hmem => ?_
    rcases List.mem_cons.mp hmem with heq | hmem
    · cases heq
    · exact h.published g e hmem

end Pending

/-! ### Runs -/

/-- When no client is expired, `handle_notify` publishes the first one with the dialogue. -/
theorem scan_fresh {d : Int32} {now : ℚ} {l : List ClientInfo}
    (h : ∀ c ∈ l, now - c.timestamp ≤ CLIENTINFO_EXPIREDTHRESHOLD) :
    scan d now l = ⟨[], l.find? fun c => c.dialogue = d, l.eraseP fun c => c.dialogue = d⟩ := by
  induction l with
  | nil => rfl
  | cons c l ih =>
    rw [scan, if_neg (not_lt.mpr (h c List.mem_cons_self))]
    by_cases hc : c.dialogue = d
    · simp [hc]
    · simp [hc, ih fun e he => h e (List.mem_cons_of_mem _ he)]

/-- The clients in `list_client` will not have waited too long when their notifications arrive. -/
def Fresh (s : Forwarder) (acts : List Act) : Prop :=
  ∀ c ∈ s.list_client, ∀ pid now, .notify pid c.dialogue now ∈ acts →
    now - c.timestamp ≤ CLIENTINFO_EXPIREDTHRESHOLD

/-- Then no client in the list has waited too long at any notification. -/
theorem Fresh.at_notify {pid d : Int32} {now : ℚ} {acts : List Act}
    (h : Fresh s (.notify pid d now :: acts)) (htime : ∀ a ∈ acts, Timely (.notify pid d now) a)
    (hclient : ∀ c ∈ s.list_client,
      ∃ q, (q, c.dialogue) ∈ notifications (.notify pid d now :: acts)) :
    ∀ c ∈ s.list_client, now - c.timestamp ≤ CLIENTINFO_EXPIREDTHRESHOLD := by
  intro c hc
  obtain ⟨q, hq⟩ := hclient c hc
  obtain ⟨u, hu⟩ := mem_notifications.mp hq
  have hfresh := h c hc q u hu
  rcases List.mem_cons.mp hu with heq | hu
  · cases heq
    exact hfresh
  · have hle : now ≤ u := htime _ hu
    linarith

/-- One event of the jobs, by what has come before it: a client is stored or forwarded, and a
    notification waits or fetches. -/
theorem pending_move (hj : Jobs jobs) (hsound : Sound s) {a : Act} {acts : List Act}
    {log : List Event} (ha : a.isNotifyOrClient = true)
    (htime : ∀ b ∈ acts, Timely a b) (hfresh : Fresh s (a :: acts))
    (h : Pending jobs (notifications (a :: acts)) (headers (a :: acts)) log s) (hm : Move s a s') :
    ∃ events, s'.log = events ++ s.log ∧
      Pending jobs (notifications acts) (headers acts) (events ++ log) s' ∧ Fresh s' acts ∧
      s'.map_follower = s.map_follower := by
  -- the clients that are stored are as fresh as they were for the later notifications
  have hlater : Fresh s acts := fun c hc pid now hmem =>
    hfresh c hc pid now (List.mem_cons_of_mem _ hmem)
  cases hm with
  | acceptFollower fd pid hfree => cases ha
  | clientHungUp fd conn hentry => cases ha
  | followerHungUp fd f hf hfd hentry => cases ha
  | acceptClient fd hfree =>
    exact ⟨[], rfl, ⟨h.registered, h.notes_sub, h.notes_nodup, h.headers_sub, h.headers_nodup,
      h.client, h.stored, h.distinct, h.waiting, h.asked, h.done, h.done_nodup, h.published⟩,
      hlater, rfl⟩
  | stored fd conn d now order hentry hno =>
    refine ⟨[], rfl, h.store hj ⟨fd, d, now, conn⟩ rfl hno _, ?_, rfl⟩
    intro c hc pid u hmem
    -- a client that comes in now is fresh for the notifications after it
    rcases List.mem_cons.mp hc with rfl | hc
    · exact htime _ hmem rfl
    · exact hlater c hc pid u hmem
  | forwarded fd conn d now order f hentry hf hreg hd =>
    exact ⟨[_], rfl, h.forward hj hsound ⟨fd, d, now, conn⟩ rfl f hf hreg hd _ _, hlater, rfl⟩
  | ignored pid d now hreg =>
    exact absurd hreg (h.registered (pid, d) (h.notes_sub _ List.mem_cons_self))
  | notified pid d now f hf hpid hreg hnone =>
    subst hpid
    -- no client that waits has expired, so the scan only looks for the dialogue
    rw [scan_fresh (hfresh.at_notify htime fun c hc => (h.client c hc).2)] at hnone ⊢
    have hno : ∀ c ∈ s.list_client, ¬ decide (c.dialogue = d) = true := List.find?_eq_none.mp hnone
    rw [List.eraseP_of_forall_not hno]
    refine ⟨[_], rfl, h.wait hj hsound f hf rfl hreg (fun c hc hd => ?_) _, hlater, rfl⟩
    exact hno c hc (decide_eq_true hd)
  | fetched pid d now f c hf hpid hreg hsome =>
    subst hpid
    rw [scan_fresh (hfresh.at_notify htime fun c hc => (h.client c hc).2)] at hsome ⊢
    refine ⟨[_, _], rfl, h.fetch hj hsound f hf rfl hreg c hsome _ _, ?_, rfl⟩
    exact fun e he => hlater e (List.mem_of_mem_eraseP he)

/-- **A whole run**, by induction over the events that are still to come: at its end nothing is
    pending. -/
theorem pending_run (hj : Jobs jobs) {acts : List Act} {log : List Event} (hsound : Sound s)
    (honly : ∀ a ∈ acts, a.isNotifyOrClient = true)
    (htime : acts.Pairwise Timely) (hfresh : Fresh s acts)
    (h : Pending jobs (notifications acts) (headers acts) log s)
    (hrun : exec step s acts = some s') :
    ∃ events, s'.log = events ++ s.log ∧ Pending jobs [] [] (events ++ log) s' ∧
      s'.map_follower = s.map_follower := by
  induction acts generalizing s log with
  | nil =>
    cases hrun
    exact ⟨[], rfl, h, rfl⟩
  | cons a acts ih =>
    obtain ⟨u, hst, hrun⟩ := exec_cons_eq_some.mp hrun
    obtain ⟨hnow, htime⟩ := List.pairwise_cons.mp htime
    obtain ⟨events, hlog, hpending, hfresh, hmap⟩ := pending_move hj hsound
      (honly a List.mem_cons_self) hnow hfresh h (move_of_step hsound hst)
    obtain ⟨later, hlater, hend, hmap'⟩ := ih (sound_step hsound hst)
      (fun b hb => honly b (List.mem_cons_of_mem _ hb)) htime hfresh hpending hrun
    exact ⟨later ++ events, by rw [hlater, hlog, List.append_assoc],
      by rwa [List.append_assoc], hmap'.trans hmap⟩

/-- Before the first event, everything is still to come: no client is stored, and nobody waits. -/
theorem pending_start {acts : List Act} (hempty : s.list_client = [])
    (hidle : ∀ f ∈ s.list_follower, f.dialogue = -1) (hj : Jobs jobs)
    (hreg : ∀ j ∈ jobs, s.map_follower.lookup j.1 ≠ none) (h : EventsOf jobs acts) :
    Pending jobs (notifications acts) (headers acts) [] s where
  registered := hreg
  notes_sub j hj' := h.notes.mem_iff.mp hj'
  notes_nodup := h.notes.nodup_iff.mpr (hj.pids.of_map _)
  headers_sub d hd := h.headers.mem_iff.mp hd
  headers_nodup := h.headers.nodup_iff.mpr hj.dialogues
  client := by simp [hempty]
  stored j hj' hnot :=
    absurd (h.headers.mem_iff.mpr (List.mem_map_of_mem (h.notes.mem_iff.mp hj'))) hnot
  distinct := by simp [hempty]
  waiting f hf hwaits := absurd (hidle f hf) hwaits
  asked j hj' hnot := absurd (h.notes.mem_iff.mpr hj') hnot
  done j := ⟨nofun, fun ⟨hj', hnot, _⟩ => absurd (h.notes.mem_iff.mpr hj') hnot⟩
  done_nodup := List.nodup_nil
  published := nofun

/-- **Confluence.**  From a reachable state in which no follower waits and `list_client` is empty,
    take any jobs for registered followers, with pairwise distinct pids and dialogues, none of them
    -1.  After their notifications and clients, in any order in which no client has waited too long
    when its notification arrives, each client has been published once, to the follower registered
    for its pid, no follower waits and `list_client` is empty. -/
theorem forwarder_confluent (jobs : List (Int32 × Int32)) (setup acts : List Act)
    (s₀ s : Forwarder) (hsetup : exec step init setup = some s₀)
    (hempty : s₀.list_client = []) (hidle : ∀ f ∈ s₀.list_follower, f.dialogue = -1)
    (hjobs : Jobs jobs) (hreg : ∀ j ∈ jobs, s₀.map_follower.lookup j.1 ≠ none)
    (hevents : EventsOf jobs acts) (htime : acts.Pairwise Timely)
    (hrun : exec step s₀ acts = some s) :
    (∃ log, s.log = log ++ s₀.log ∧ (deliveries log).Perm jobs ∧
        ∀ f c, .published f c ∈ log → Registered s₀ f) ∧
      (∀ f ∈ s.list_follower, f.dialogue = -1) ∧ s.list_client = [] := by
  have hstart := pending_start hempty hidle hjobs hreg hevents
  have hfresh : Fresh s₀ acts := by
    intro c hc
    rw [hempty] at hc
    cases hc
  obtain ⟨events, hlog, hend, hmap⟩ :=
    pending_run hjobs (sound_of_exec hsetup) hevents.only htime hfresh hstart hrun
  rw [List.append_nil] at hend
  refine ⟨⟨events, hlog, ?_, fun f c hmem => ?_⟩, fun f hf => ?_, ?_⟩
  -- every job is done once; nobody waits and no client is left, as no notification is to come
  · refine (List.perm_ext_iff_of_nodup hend.done_nodup (hjobs.pids.of_map _)).mpr fun j => ?_
    simp [hend.done j]
  · have hfreg := hend.published f c hmem
    rwa [Registered, hmap] at hfreg
  · by_contra hwaits
    cases (hend.waiting f hf hwaits).2.2.2
  · refine List.eq_nil_iff_forall_not_mem.mpr fun c hc => ?_
    obtain ⟨-, pid, hnote⟩ := hend.client c hc
    cases hnote

/-- Two jobs: the client of the first comes before its notification, the other one after. -/
def rush : List Act :=
  [.acceptClient 5, .acceptClient 6, .peekHeader 5 1 0 [0, 1], .notify 8 2 10, .notify 7 1 20,
   .peekHeader 6 2 30 [0, 1]]

/-- Two followers and two clients, one of which comes before its notification. -/
theorem forwarder_confluent_rush : ∃ s₀ s,
    exec step init [.acceptFollower 3 7, .acceptFollower 4 8] = some s₀ ∧
      exec step s₀ rush = some s ∧ ∃ log, s.log = log ++ s₀.log ∧
      (deliveries log).Perm [(7, 1), (8, 2)] := by
  obtain ⟨s₀, hsetup, htest⟩ := exists_of_exec_any
    (show (exec step init [.acceptFollower 3 7, .acceptFollower 4 8]).any (fun s =>
      s.list_client = [] ∧ (∀ f ∈ s.list_follower, f.dialogue = -1) ∧
        s.map_follower.lookup 7 ≠ none ∧ s.map_follower.lookup 8 ≠ none ∧
        (exec step s rush).isSome) = true by decide +kernel)
  obtain ⟨hempty, hidle, h7, h8, hrun⟩ := of_decide_eq_true htest
  obtain ⟨s, hrun⟩ := Option.isSome_iff_exists.mp hrun
  have hreal : ∀ j ∈ [((7 : Int32), (1 : Int32)), (8, 2)], j.2 ≠ -1 :=
    List.forall_mem_cons.mpr ⟨by decide, List.forall_mem_singleton.mpr (by decide)⟩
  have hevents : EventsOf [(7, 1), (8, 2)] rush := ⟨by decide, by decide, by decide⟩
  have htime : rush.Pairwise Timely := by
    simp only [rush, List.pairwise_cons, List.mem_cons, List.not_mem_nil, forall_eq_or_imp]
    norm_num [Timely, CLIENTINFO_EXPIREDTHRESHOLD]
  obtain ⟨⟨log, hlog, hperm, -⟩, -, -⟩ := forwarder_confluent [(7, 1), (8, 2)] _ rush s₀ s hsetup
    hempty hidle ⟨by decide, by decide, hreal⟩ (by simpa using ⟨h7, h8⟩) hevents htime hrun
  exact ⟨s₀, s, hsetup, hrun, log, hlog, hperm⟩

end CPlayground.Monitor.Forwarder
