import CPlayground.Relay.Collector.HandOver
import CPlayground.Relay.Message
import CPlayground.Relay.Notifier
import CPlayground.Relay.RemoteReader

namespace CPlayground.Relay

open CPlayground.Trace
open Codec (Data Output decode encode retrieveTopic)
open Collector (HandOver)
open RemoteReader (Peer handleMessage)
open Secure (kDataLen)

/-!
# From the datagrams to the consumers

The collector makes a record of each datagram and hands it over to the thread that sends it; the
relay decrypts what it receives, asks the filter and writes the value to a pipe; the notifier
decodes what it reads there and calls the consumers.  Here these parts run beside each other, over
one connection.

A message gets lost where the collector is not connected, where the filter refuses its topic, and
where the pipe is full.  Nothing else happens to the messages as long as every `recv` returns a
record:

* `Pipeline.taken_in_order` — the notifier takes some of the messages, in the order of the
  datagrams, each of them as `decode` prints what was parsed of the datagram.
* `Pipeline.nothing_lost` — where none of the three happens either, it takes all of them.
-/

/-- What `HandleGroupMsg` hands over, with the datagram it is made of. -/
structure Payload where
  ip : List Char
  buf : List Char
  mask : UInt8
  record : List UInt8
  made : Message.handleGroupMsg ip buf mask = some record

namespace Payload

/-- What is packed in the record. -/
def data (p : Payload) : Data := encode (Message.parse p.ip p.buf)

/-- `HandleGroupMsg` for a datagram. -/
def ofDatagram (ip buf : List Char) (mask : UInt8) : Payload :=
  ⟨ip, buf, mask, _, Secure.encrypt_eq (encode (Message.parse ip buf)).block mask⟩

/-- What the notifier prints of it. -/
def printed (p : Payload) : Output := decode p.data

/-- A record has its fixed length, whatever the datagram was. -/
theorem length_record (p : Payload) : p.record.length = kDataLen :=
  (Secure.decrypt_of_encrypt p.made p.data.block).1

end Payload

/-- The collector, the bytes on their way to the relay, the connection as the relay has it, and the
    notifier with the thread of the relay. -/
structure Pipeline where
  collector : HandOver Nat Payload := {}
  wire : List UInt8 := []
  peer : Peer := {}
  notifier : Notifier := {}

/-- The value that `handle_message` is at. -/
def RelayPc.values : RelayPc → List Data
  | .idle => []
  | .decrypted x | .accepted x => [x]

namespace Pipeline

/-- A step of the collector, where `append` is `HandleGroupMsg`; the start of `handle_message` for
    an event, with what `recv` returns; or another step of the relay and the notifier. -/
inductive Act where
  | collector (a : HandOver.Act Nat Payload)
  | recv (n : Nat)
  | notifier (a : Notifier.Act)

/-- One step of a run.  What the collector sends is appended to the wire, and a `recv` takes bytes
    from it and decrypts the buffer of the connection. -/
def step (s : Pipeline) : Act → Option Pipeline
  | .collector a =>
    (HandOver.step s.collector a).map fun c =>
      let sent := c.sent.drop s.collector.sent.length
      { s with collector := c, wire := s.wire ++ (sent.map Payload.record).flatten }
  | .recv n =>
    if h : (0 < n ∧ n ≤ s.wire.length) ∧ n ≤ kDataLen ∧ s.peer.kicked = false then
      (handleMessage s.peer ⟨s.wire.take n, by
        simp only [ne_eq, List.length_take, ← List.length_eq_zero_iff]
        omega⟩).bind fun peer =>
        if peer.kicked then some { s with peer := peer, wire := s.wire.drop n }
        else peer.decrypted.getLast?.bind fun x =>
          (Notifier.step s.notifier (.message x)).map fun m =>
            { s with peer := peer, wire := s.wire.drop n, notifier := m }
    else none
  | .notifier (.message _) => none
  | .notifier a => (Notifier.step s.notifier a).map fun m => { s with notifier := m }

variable {s s' : Pipeline}

/-! ### What the collector sends -/

section Collector

variable {c c' : HandOver Nat Payload} {a : HandOver.Act Nat Payload}

/-- `Consume` sends what it iterates over, if the collector is connected; the other steps leave both
    histories as they are. -/
theorem history_of_consume (h : c.consume = some c') :
    c'.state = c.state ∧ (c'.iterated = c.iterated ∧ c'.sent = c.sent ∨
      ∃ p, c'.iterated = c.iterated ++ [p] ∧
        c'.sent = if c.state = .READY then c.sent ++ [p] else c.sent) := by
  unfold HandOver.consume at h
  -- only the loop over `cv` iterates over a payload, and it sends it in `READY`
  cases hpc : c.pc with
  | top | ready =>
    simp only [hpc, Option.some.injEq] at h
    subst h
    exact ⟨rfl, .inl ⟨rfl, rfl⟩⟩
  | reading =>
    cases hchars : c.chars with
    | nil => simp [hpc, hchars] at h
    | cons =>
      simp only [hpc, hchars, Option.some.injEq] at h
      subst h
      exact ⟨rfl, .inl ⟨rfl, rfl⟩⟩
  | iterating i =>
    cases hget : c.cv[i]? with
    | some p =>
      simp only [hpc, hget, Option.some.injEq] at h
      subst h
      exact ⟨rfl, .inr ⟨p, rfl, rfl⟩⟩
    | none =>
      simp only [hpc, hget, Option.some.injEq] at h
      subst h
      exact ⟨rfl, .inl ⟨rfl, rfl⟩⟩
  | exited =>
    rw [hpc] at h
    cases h

/-- Any step of the collector. -/
theorem history_of_step (h : HandOver.step c a = some c') :
    c'.iterated = c.iterated ∧ c'.sent = c.sent ∨
      ∃ p, c'.iterated = c.iterated ++ [p] ∧
        c'.sent = if c.state = .READY then c.sent ++ [p] else c.sent := by
  cases a with
  | append t p | wake t =>
    simp only [HandOver.step, Option.ite_none_left_eq_some, Option.ite_none_right_eq_some,
      Option.some.injEq] at h
    obtain ⟨-, rfl⟩ := h
    exact .inl ⟨rfl, rfl⟩
  | quit | setState => cases h; exact .inl ⟨rfl, rfl⟩
  | consume => exact (history_of_consume h).2

/-- What a step sends comes last of what is sent. -/
theorem sent_of_step (h : HandOver.step c a = some c') :
    c'.sent = c.sent ++ c'.sent.drop c.sent.length := by
  rcases history_of_step h with ⟨-, hsent⟩ | ⟨p, -, hsent⟩
  · rw [hsent, List.drop_length, List.append_nil]
  · rw [hsent]
    split <;> simp

/-- What is sent is some of what is iterated over, in this order; `Consume` drops payloads while
    there is no connection. -/
theorem sublist_of_step (hsub : c.sent.Sublist c.iterated) (h : HandOver.step c a = some c') :
    c'.sent.Sublist c'.iterated := by
  rcases history_of_step h with ⟨hiterated, hsent⟩ | ⟨p, hiterated, hsent⟩
  · rwa [hiterated, hsent]
  · rw [hiterated, hsent]
    split
    · exact hsub.append (List.Sublist.refl _)
    · exact hsub.trans (List.sublist_append_left _ _)

/-- A collector that waits has nothing left to send. -/
theorem iterated_of_blocked (hs : HandOver.Sound c) (hwaking : c.waking = [])
    (hblocked : HandOver.Blocked c) : c.iterated = c.appended := by
  obtain ⟨hpc, hchars⟩ := hblocked
  have hpv : c.pv = [] := by
    by_contra hpv
    rcases hs.announced hpv with (hchar | hwake) | hready | hexited
    · rw [hchars] at hchar
      cases hchar
    · exact hwake hwaking
    · exact absurd (hpc.symm.trans hready) nofun
    · exact absurd (hpc.symm.trans hexited) nofun
  have horder := hs.order
  simp only [HandOver.pending, hpc, hpv, List.append_nil] at horder
  exact horder

end Collector

/-! ### What the relay forwards -/

section Notifier

variable {m m' : Notifier} {values : List Data} {a : Notifier.Act} {x : Data}

/-- Of the values that were decrypted, some are forwarded; the notifier has taken them, or they
    are in its pipe. -/
def Relayed (values : List Data) (m : Notifier) : Prop :=
  ∃ front forwarded, values = front ++ m.relay.values ∧ List.Sublist forwarded front ∧
    m.taken ++ m.pipe.map decode = forwarded.map decode

/-- The steps that neither move a value nor drop one. -/
theorem Relayed.frame (h : Relayed values m) (hrelay : m'.relay = m.relay)
    (hpipe : m'.pipe = m.pipe) (htaken : m'.taken = m.taken) : Relayed values m' := by
  rw [Relayed, hrelay, hpipe, htaken]
  exact h

/-- `handle_message` takes a new value only when it is done with the one before. -/
theorem relay_eq_idle (h : Notifier.step m (.message x) = some m') :
    m.relay = .idle ∧ m' = { m with relay := .decrypted x } := by
  cases hrelay : m.relay with
  | idle =>
    simp only [Notifier.step, hrelay, Option.some.injEq] at h
    exact ⟨rfl, h.symm⟩
  | decrypted | accepted =>
    simp only [Notifier.step, hrelay] at h
    cases h

/-- The value that was received is the one that `handle_message` is at. -/
theorem relayed_message (h : Relayed values m) (hst : Notifier.step m (.message x) = some m') :
    Relayed (values ++ [x]) m' := by
  obtain ⟨hidle, rfl⟩ := relay_eq_idle hst
  obtain ⟨front, forwarded, hvalues, hsub, htaken⟩ := h
  rw [hidle, RelayPc.values, List.append_nil] at hvalues
  exact ⟨front, forwarded, by rw [hvalues, RelayPc.values], hsub, htaken⟩

/-- The filter drops the value or keeps it; in both cases the values that are passed on are some of
    those that were decrypted, in order. -/
theorem relayed_filter (h : Relayed values m) (hst : Notifier.step m .filter = some m') :
    Relayed values m' := by
  obtain ⟨front, forwarded, hvalues, hsub, htaken⟩ := h
  cases hrelay : m.relay with
  | idle | accepted =>
    simp only [Notifier.step, hrelay] at hst
    cases hst
  | decrypted x =>
    simp only [Notifier.step, hrelay, Option.some.injEq] at hst
    subst hst
    rw [hrelay] at hvalues
    by_cases haccepts : m.accepts (retrieveTopic x.b) = true
    · exact ⟨front, forwarded, by simpa [haccepts, RelayPc.values] using hvalues, hsub, htaken⟩
    · refine ⟨front ++ [x], forwarded, ?_, hsub.trans (List.sublist_append_left _ _), htaken⟩
      simpa [haccepts, RelayPc.values] using hvalues

/-- The value goes into the pipe, or is dropped if 128 bytes or more are unread in it. -/
theorem relayed_forward (h : Relayed values m) (hst : Notifier.step m .forward = some m') :
    Relayed values m' := by
  obtain ⟨front, forwarded, hvalues, hsub, htaken⟩ := h
  cases hrelay : m.relay with
  | idle | decrypted =>
    simp only [Notifier.step, hrelay] at hst
    cases hst
  | accepted x =>
    simp only [Notifier.step, hrelay, Option.some.injEq] at hst
    subst hst
    have hfront : values = (front ++ [x]) ++ RelayPc.values .idle := by
      simpa [hrelay, RelayPc.values] using hvalues
    by_cases hroom : m.pipe.length * Codec.kDataSize < 128
    · refine ⟨front ++ [x], forwarded ++ [x], hfront, hsub.append (List.Sublist.refl _), ?_⟩
      simp only [if_pos hroom, List.map_append, ← List.append_assoc, htaken]
    · refine ⟨front ++ [x], forwarded, hfront, hsub.trans (List.sublist_append_left _ _), ?_⟩
      simpa only [if_neg hroom] using htaken

/-- `Run` takes the values out of the pipe in the order in which they were written. -/
theorem relayed_read (h : Relayed values m) (hst : Notifier.step m .read = some m') :
    Relayed values m' := by
  obtain ⟨front, forwarded, hvalues, hsub, htaken⟩ := h
  cases hrun : m.run with
  | polling =>
    cases hpipe : m.pipe with
    | nil => simp [Notifier.step, hrun, hpipe] at hst
    | cons x pipe =>
      simp only [Notifier.step, hrun, hpipe, Option.some.injEq] at hst
      subst hst
      refine ⟨front, forwarded, hvalues, hsub, ?_⟩
      simpa [hpipe] using htaken
  | decoded | publishing => simp [Notifier.step, hrun] at hst

/-- The steps of `Register` and of the publication leave alone what the relay has and what is in the
    pipe. -/
theorem untouched_of_step (hst : Notifier.step m a = some m')
    (ha : a ≠ .filter ∧ a ≠ .forward ∧ a ≠ .read ∧ ∀ x, a ≠ .message x) :
    m'.relay = m.relay ∧ m'.pipe = m.pipe ∧ m'.taken = m.taken := by
  -- registrations and the steps of `Run` behind its `read` touch neither the relay nor the pipe
  cases a with
  | register key topics =>
    cases hst
    unfold Notifier.register
    split <;> exact ⟨rfl, rfl, rfl⟩
  | swapOut =>
    cases hrun : m.run with
    | decoded output =>
      simp only [Notifier.step, hrun, Option.some.injEq] at hst
      subst hst
      unfold Notifier.swapOut
      dsimp only
      split <;> exact ⟨rfl, rfl, rfl⟩
    | polling | publishing => simp [Notifier.step, hrun] at hst
  | call ok =>
    cases hrun : m.run with
    | publishing p tasks valid =>
      cases tasks with
      | nil => simp [Notifier.step, hrun] at hst
      | cons c tasks =>
        cases ok <;> simp only [Notifier.step, hrun, if_true, Bool.false_eq_true, if_false,
          Option.some.injEq] at hst <;> subst hst <;> exact ⟨rfl, rfl, rfl⟩
    | polling | decoded => simp [Notifier.step, hrun] at hst
  | pushBack =>
    cases hrun : m.run with
    | publishing p tasks valid =>
      cases tasks with
      | nil =>
        simp only [Notifier.step, hrun, Option.some.injEq] at hst
        subst hst
        exact ⟨rfl, rfl, rfl⟩
      | cons => simp [Notifier.step, hrun] at hst
    | polling | decoded => simp [Notifier.step, hrun] at hst
  | filter => exact absurd rfl ha.1
  | forward => exact absurd rfl ha.2.1
  | read => exact absurd rfl ha.2.2.1
  | message x => exact absurd rfl (ha.2.2.2 x)

/-- The other steps of the notifier do not touch the values. -/
theorem relayed_step (h : Relayed values m) (hst : Notifier.step m a = some m')
    (ha : ∀ x, a ≠ .message x) : Relayed values m' := by
  cases a with
  | filter => exact relayed_filter h hst
  | forward => exact relayed_forward h hst
  | read => exact relayed_read h hst
  | message x => exact absurd rfl (ha x)
  | register | swapOut | call | pushBack =>
    obtain ⟨hrelay, hpipe, htaken⟩ := untouched_of_step hst (by simp)
    exact h.frame hrelay hpipe htaken

end Notifier

/-! ### The whole way -/

/-- Every `recv` returns a record.  The socket does not block, so that the code itself does not
    guarantee this. -/
def Whole : Act → Prop
  | .recv n => n = kDataLen
  | _       => True

instance (a : Act) : Decidable (Whole a) :=
  match a with
  | .recv n => inferInstanceAs (Decidable (n = kDataLen))
  | .collector _ | .notifier _ => .isTrue trivial

/-- What is on the wire are the records that were sent and have not arrived. -/
def Stream (s : Pipeline) : Prop :=
  ∃ arrived rest, s.collector.sent = arrived ++ rest ∧
    s.wire = (rest.map Payload.record).flatten ∧ s.peer.decrypted = arrived.map Payload.data

/-- What holds as long as every `recv` returns a record: what is on the wire and what was decrypted
    are the records that were sent, in order, and the notifier has some of the values, in order. -/
structure Inv (s : Pipeline) : Prop where
  collector : HandOver.Sound s.collector
  sent : s.collector.sent.Sublist s.collector.iterated
  stream : Stream s
  buffer : s.peer.buffer.length = kDataLen
  kicked : s.peer.kicked = false
  relayed : Relayed s.peer.decrypted s.notifier

/-- Nothing has been sent. -/
theorem inv_init : Inv {} where
  collector := HandOver.sound_init
  sent := List.Sublist.refl _
  stream := ⟨[], [], rfl, rfl, rfl⟩
  buffer := rfl
  kicked := rfl
  relayed := ⟨[], [], rfl, List.Sublist.refl _, rfl⟩

/-- The next record is decrypted: as every `recv` returns a record, the first bytes on the wire are
    one. -/
theorem of_recv (h : Inv s) (hst : step s (.recv kDataLen) = some s') :
    ∃ p arrived rest m, s.collector.sent = arrived ++ p :: rest ∧
      s.peer.decrypted = arrived.map Payload.data ∧
      Notifier.step s.notifier (.message p.data) = some m ∧
      s' = { s with
        peer := ⟨Secure.SECRET ++ p.mask :: p.data.block.1, s.peer.decrypted ++ [p.data], false⟩
        wire := (rest.map Payload.record).flatten
        notifier := m } := by
  obtain ⟨arrived, rest, hsent, hwire, hdecrypted⟩ := h.stream
  rw [step] at hst
  split at hst
  · rename_i hn
    -- there is a record on the wire, as there are enough bytes
    cases rest with
    | nil =>
      have hlen := hn.1.2
      rw [hwire] at hlen
      exact absurd hlen (by decide)
    | cons p rest =>
      rw [List.map_cons, List.flatten_cons] at hwire
      have hlen := p.length_record
      have htake : s.wire.take kDataLen = p.record := by rw [hwire, ← hlen, List.take_left]
      have hdrop : s.wire.drop kDataLen = (rest.map Payload.record).flatten := by
        rw [hwire, ← hlen, List.drop_left]
      -- and the bytes that were taken are this record, which is decrypted to its value
      have hrecord : Secure.encrypt p.data.block p.mask = some (s.wire.take kDataLen) := by
        rw [htake]
        exact p.made
      rw [RemoteReader.handleMessage_record h.buffer hrecord] at hst
      simp only [Option.bind_some, h.kicked, Bool.false_eq_true, if_false, List.getLast?_concat,
        Option.map_eq_some_iff] at hst
      obtain ⟨m, hm, rfl⟩ := hst
      exact ⟨p, arrived, rest, m, hsent, hdecrypted, hm, by rw [hdrop]⟩
  · cases hst

/-- A step of the notifier leaves the rest of the pipeline as it is, and it is not the one with a
    message, which only a `recv` makes. -/
theorem of_notifier {a : Notifier.Act} (hst : step s (.notifier a) = some s') :
    (∀ x, a ≠ .message x) ∧
      ∃ m, Notifier.step s.notifier a = some m ∧ { s with notifier := m } = s' := by
  cases a with
  | message x => cases hst
  | register | filter | forward | read | swapOut | call | pushBack =>
    exact ⟨nofun, Option.map_eq_some_iff.mp hst⟩

/-- **One step keeps the order** from the datagrams to the notifier, if a `recv` returns a whole
    record. -/
theorem inv_step {a : Act} (h : Inv s) (ha : Whole a) (hst : step s a = some s') : Inv s' := by
  cases a with
  | collector a =>
    obtain ⟨c, hc, rfl⟩ := Option.map_eq_some_iff.mp hst
    obtain ⟨arrived, rest, hsent, hwire, hdecrypted⟩ := h.stream
    refine { h with
      collector := HandOver.sound_step h.collector hc
      sent := sublist_of_step h.sent hc
      stream := ⟨arrived, rest ++ c.sent.drop s.collector.sent.length, ?_, ?_, hdecrypted⟩ }
    -- what is new in the history of the collector is new on the wire
    · dsimp only
      rw [← List.append_assoc, ← hsent]
      exact sent_of_step hc
    · dsimp only
      rw [List.map_append, List.flatten_append, ← hwire]
  -- the record moves from the wire to what was decrypted
  | recv n =>
    cases ha
    obtain ⟨p, arrived, rest, m, hsent, hdecrypted, hm, rfl⟩ := of_recv h hst
    refine { h with
      stream := ⟨arrived ++ [p], rest, ?_, rfl, ?_⟩
      buffer := ?_
      kicked := rfl
      relayed := relayed_message h.relayed hm }
    · rw [hsent, List.append_assoc]
      rfl
    · rw [hdecrypted, List.map_append]
      rfl
    · have hblock := p.data.block.2
      simp [Secure.SECRET, hblock, kDataLen, Codec.kDataSize]
  | notifier a =>
    obtain ⟨hmessage, m, hm, rfl⟩ := of_notifier hst
    exact { h with relayed := relayed_step h.relayed hm hmessage }

/-- The invariant of every run with whole records. -/
theorem inv_of_exec {acts : List Act} (hwhole : ∀ a ∈ acts, Whole a)
    (hrun : exec step {} acts = some s) : Inv s :=
  exec_invariant_along (fun _ _ _ h ha hst => inv_step h ha hst) inv_init
    (along_of_forall hwhole _) hrun

/-- The messages that are forwarded, with the payloads they come from: what arrives is what was
    sent, and some of it is dropped. -/
theorem forwarded_payloads (h : Inv s) :
    ∃ ps, List.Sublist ps s.collector.appended ∧
      s.notifier.taken ++ s.notifier.pipe.map decode = ps.map Payload.printed := by
  obtain ⟨arrived, rest, hsent, -, hdecrypted⟩ := h.stream
  obtain ⟨front, forwarded, hvalues, hsub, htaken⟩ := h.relayed
  have hforwarded : forwarded.Sublist (arrived.map Payload.data) := by
    rw [← hdecrypted, hvalues]
    exact hsub.trans (List.sublist_append_left _ _)
  obtain ⟨ps, hps, rfl⟩ := List.sublist_map_iff.mp hforwarded
  have hiterated : s.collector.iterated.Sublist s.collector.appended := by
    rw [← h.collector.order]
    exact List.sublist_append_left _ _
  have harrived : arrived.Sublist s.collector.sent := by
    rw [hsent]
    exact List.sublist_append_left _ _
  refine ⟨ps, hps.trans (harrived.trans (h.sent.trans hiterated)), ?_⟩
  rw [htaken, List.map_map]
  rfl

/-- **In order.**  In every interleaving of the collector, the relay and the notifier in which
    each `recv` returns a record, the messages that the notifier takes are printed from some of
    the datagrams, in the order in which the collector has handled them, and none is taken
    twice. -/
theorem taken_in_order (acts : List Act) (s : Pipeline) (hwhole : ∀ a ∈ acts, Whole a)
    (hrun : exec step {} acts = some s) :
    ∃ ps, List.Sublist ps s.collector.appended ∧ s.notifier.taken = ps.map Payload.printed := by
  obtain ⟨ps, hps, htaken⟩ := forwarded_payloads (inv_of_exec hwhole hrun)
  obtain ⟨taken, piped, rfl, htaken, -⟩ := List.append_eq_map_iff.mp htaken
  exact ⟨taken, (List.sublist_append_left _ _).trans hps, htaken.symm⟩

/-- The datagram of the test in the source, and its way to the notifier. -/
def oneDatagram : Payload := .ofDatagram "192.168.10.182".toList "12@179@-345".toList 0x5a

/-- One consumer for the topic 182, and one datagram that goes all the way to the notifier. -/
def oneMessage : List Act :=
  [.notifier (.register 1 ["182".toList]), .collector .consume, .collector (.append 0 oneDatagram),
    .collector (.wake 0), .collector .consume, .collector .consume, .collector .consume,
    .collector .consume, .collector .consume, .recv kDataLen, .notifier .filter,
    .notifier .forward, .notifier .read]

/-- The message that the notifier takes is the one of the datagram. -/
theorem taken_in_order_one : ∃ s, exec step {} oneMessage = some s ∧
    s.notifier.taken.length = 1 ∧
    ∃ ps, List.Sublist ps s.collector.appended ∧ s.notifier.taken = ps.map Payload.printed := by
  obtain ⟨s, hrun, htest⟩ := exists_of_exec_any
    (show (exec step {} oneMessage).any (fun s => s.notifier.taken.length = 1) = true
      by decide +kernel)
  exact ⟨s, hrun, of_decide_eq_true htest,
    taken_in_order oneMessage s (by decide +kernel) hrun⟩

/-! ### Nothing is lost -/

/-- The steps that drop no message: every `recv` returns a whole record, the collector is connected,
    the filter accepts the topic, and there is room in the pipe. -/
def Kept (s : Pipeline) : Act → Prop
  | .recv n => n = kDataLen
  | .collector (.setState state) => state = .READY
  | .notifier .filter =>
    ∀ x ∈ s.notifier.relay.values, s.notifier.accepts (retrieveTopic x.b) = true
  | .notifier .forward => s.notifier.pipe.length * Codec.kDataSize < 128
  | _ => True

instance (s : Pipeline) (a : Act) : Decidable (Kept s a) :=
  match a with
  | .recv n => inferInstanceAs (Decidable (n = kDataLen))
  | .collector (.setState state) => inferInstanceAs (Decidable (state = .READY))
  | .notifier .filter => inferInstanceAs (Decidable
      (∀ x ∈ s.notifier.relay.values, s.notifier.accepts (retrieveTopic x.b) = true))
  | .notifier .forward => inferInstanceAs (Decidable
      (s.notifier.pipe.length * Codec.kDataSize < 128))
  | .collector (.append ..) | .collector (.wake _) | .collector .quit | .collector .consume
  | .notifier (.register ..) | .notifier (.message _) | .notifier .read | .notifier .swapOut
  | .notifier (.call _) | .notifier .pushBack => .isTrue trivial

/-- As many messages at each place as at the place before: with a connection all payloads are sent,
    and no value is dropped between the relay and the notifier. -/
structure Counted (s : Pipeline) : Prop where
  state : s.collector.state = .READY
  sent : s.collector.sent.length = s.collector.iterated.length
  relayed : s.notifier.taken.length + s.notifier.pipe.length + s.notifier.relay.values.length
    = s.peer.decrypted.length

/-- Such a step is one with a whole record. -/
theorem whole_of_kept {a : Act} (ha : Kept s a) : Whole a := by
  cases a with
  | recv n => exact ha
  | collector | notifier => exact trivial

/-- With a connection `Consume` sends whatever it iterates over, so that the two counts stay the
    same. -/
theorem counted_collector {c c' : HandOver Nat Payload} {a : HandOver.Act Nat Payload}
    (hstate : c.state = .READY) (hsent : c.sent.length = c.iterated.length)
    (ha : ∀ state, a = .setState state → state = .READY) (hst : HandOver.step c a = some c') :
    c'.state = .READY ∧ c'.sent.length = c'.iterated.length := by
  constructor
  · cases a with
    | append t p | wake t =>
      simp only [HandOver.step, Option.ite_none_left_eq_some, Option.ite_none_right_eq_some,
        Option.some.injEq] at hst
      obtain ⟨-, rfl⟩ := hst
      exact hstate
    | quit => cases hst; exact hstate
    | setState state => cases hst; exact ha state rfl
    | consume => exact (history_of_consume hst).1.trans hstate
  · rcases history_of_step hst with ⟨hiterated, hsent'⟩ | ⟨p, hiterated, hsent'⟩
    · rw [hiterated, hsent', hsent]
    · rw [hiterated, hsent', if_pos hstate, List.length_append, List.length_append, hsent]

/-- With an accepting filter and room in the pipe no value is dropped between the relay and the
    notifier. -/
theorem counted_notifier {m m' : Notifier} {a : Notifier.Act}
    (hst : Notifier.step m a = some m') (ha : ∀ x, a ≠ .message x)
    (haccepts : a = .filter → ∀ x ∈ m.relay.values, m.accepts (retrieveTopic x.b) = true)
    (hroom : a = .forward → m.pipe.length * Codec.kDataSize < 128) :
    m'.taken.length + m'.pipe.length + m'.relay.values.length
      = m.taken.length + m.pipe.length + m.relay.values.length := by
  -- a value is dropped only by the filter or by a pipe that is full
  cases a with
  | filter =>
    cases hrelay : m.relay with
    | idle | accepted => simp [Notifier.step, hrelay] at hst
    | decrypted x =>
      have hx := haccepts rfl x (by simp [hrelay, RelayPc.values])
      simp only [Notifier.step, hrelay, hx, if_true, Option.some.injEq] at hst
      subst hst
      rfl
  | forward =>
    cases hrelay : m.relay with
    | idle | decrypted => simp [Notifier.step, hrelay] at hst
    | accepted x =>
      simp only [Notifier.step, hrelay, if_pos (hroom rfl), Option.some.injEq] at hst
      subst hst
      simp only [RelayPc.values, List.length_append, List.length_singleton, List.length_nil]
      omega
  | read =>
    cases hrun : m.run with
    | polling =>
      cases hpipe : m.pipe with
      | nil => simp [Notifier.step, hrun, hpipe] at hst
      | cons x pipe =>
        simp only [Notifier.step, hrun, hpipe, Option.some.injEq] at hst
        subst hst
        simp only [List.length_append, List.length_cons, List.length_nil]
        omega
    | decoded | publishing => simp [Notifier.step, hrun] at hst
  | message x => exact absurd rfl (ha x)
  | register | swapOut | call | pushBack =>
    obtain ⟨hrelay, hpipe, htaken⟩ := untouched_of_step hst (by simp)
    rw [hrelay, hpipe, htaken]

/-- **A step that keeps its message keeps the counts**: the collector is connected, the filter
    accepts the topic, and the pipe has room. -/
theorem counted_step {a : Act} (hinv : Inv s) (h : Counted s) (ha : Kept s a)
    (hst : step s a = some s') : Counted s' := by
  cases a with
  | collector a =>
    obtain ⟨c, hc, rfl⟩ := Option.map_eq_some_iff.mp hst
    obtain ⟨hstate, hsent⟩ := counted_collector h.state h.sent
      (fun state heq => by subst heq; exact ha) hc
    exact ⟨hstate, hsent, h.relayed⟩
  | recv n =>
    cases ha
    obtain ⟨p, arrived, rest, m, -, -, hm, rfl⟩ := of_recv hinv hst
    obtain ⟨hidle, rfl⟩ := relay_eq_idle hm
    refine ⟨h.state, h.sent, ?_⟩
    have hcount := h.relayed
    simp only [hidle, RelayPc.values, List.length_nil, List.length_append,
      List.length_singleton] at hcount ⊢
    omega
  | notifier a =>
    obtain ⟨hmessage, m, hm, rfl⟩ := of_notifier hst
    refine ⟨h.state, h.sent, (counted_notifier hm hmessage ?_ ?_).trans h.relayed⟩
    · rintro rfl
      exact ha
    · rintro rfl
      exact ha

/-- Every thread waits, and nothing is on its way: no wake-up, no payload, no byte on the wire, no
    value in hand or in the pipe. -/
structure AtRest (s : Pipeline) : Prop where
  waking : s.collector.waking = []
  blocked : HandOver.Blocked s.collector
  wire : s.wire = []
  relay : s.notifier.relay = .idle
  pipe : s.notifier.pipe = []

/-- A wire without bytes has no records on it. -/
theorem arrived_of_wire {rest : List Payload} (h : (rest.map Payload.record).flatten = []) :
    rest = [] := by
  cases rest with
  | nil => rfl
  | cons p rest =>
    rw [List.map_cons, List.flatten_cons, List.append_eq_nil_iff] at h
    have hlen := p.length_record
    rw [h.1] at hlen
    exact absurd hlen (by decide)

/-- **Nothing is lost** on the one connection between the collector and the relay.  If every `recv`
    of the relay returns a whole record, the collector stays connected, the filter accepts every
    topic and the pipe has room for every value, then at rest the notifier has taken one message
    for each datagram, in the order of the datagrams. -/
theorem nothing_lost (acts : List Act) (s : Pipeline) (hkept : Along step Kept {} acts)
    (hrun : exec step {} acts = some s) (hrest : AtRest s) :
    s.notifier.taken = s.collector.appended.map Payload.printed := by
  obtain ⟨hinv, hcounted⟩ := exec_invariant_along (P := fun s => Inv s ∧ Counted s)
    (fun _ _ _ h ha hst => ⟨inv_step h.1 (whole_of_kept ha) hst, counted_step h.1 h.2 ha hst⟩)
    ⟨inv_init, ⟨rfl, rfl, rfl⟩⟩ hkept hrun
  obtain ⟨ps, hps, htaken⟩ := forwarded_payloads hinv
  rw [hrest.pipe, List.map_nil, List.append_nil] at htaken
  -- the lengths agree all the way
  have hlength : ps.length = s.collector.appended.length := by
    obtain ⟨arrived, rest, hsent, hwire, hdecrypted⟩ := hinv.stream
    have hrest' := arrived_of_wire (hwire.symm.trans hrest.wire)
    rw [hrest', List.append_nil] at hsent
    have hcount := hcounted.relayed
    rw [hrest.pipe, hrest.relay, hdecrypted, htaken] at hcount
    simp only [RelayPc.values, List.length_nil, Nat.add_zero, List.length_map] at hcount
    rw [hcount, ← hsent, hcounted.sent,
      iterated_of_blocked hinv.collector hrest.waking hrest.blocked]
  rw [htaken, hps.eq_of_length hlength]

/-- The run above drops nothing, and is at rest at its end. -/
theorem nothing_lost_one : ∃ s, exec step {} oneMessage = some s ∧
    s.collector.appended.length = 1 ∧
    s.notifier.taken = s.collector.appended.map Payload.printed := by
  obtain ⟨s, hrun, htest⟩ := exists_of_exec_any
    (show (exec step {} oneMessage).any (fun s => s.collector.appended.length = 1 ∧
        s.collector.waking = [] ∧ s.collector.pc = .reading ∧ s.collector.chars = [] ∧
        s.wire = [] ∧ s.notifier.relay = .idle ∧ s.notifier.pipe = []) = true
      by decide +kernel)
  obtain ⟨hlength, hwaking, hpc, hchars, hwire, hrelay, hpipe⟩ := of_decide_eq_true htest
  exact ⟨s, hrun, hlength, nothing_lost oneMessage s (by decide +kernel) hrun
    ⟨hwaking, ⟨hpc, hchars⟩, hwire, hrelay, hpipe⟩⟩

end Pipeline

end CPlayground.Relay
