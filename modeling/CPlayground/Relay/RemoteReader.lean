import CPlayground.Relay.Secure
import Mathlib.Data.List.Forall2

namespace CPlayground.Relay

open Codec (Data Block)
open Secure (kDataLen SECRET encrypt decrypt)

/-!
# `RemoteReader`: reading the stream of a collector

The socket of a collector is accepted with `O_NONBLOCK`, so that `recv` returns what has arrived of
a record in spite of `MSG_WAITALL`.  `handle_message` does not look at the result of `recv`: it
decrypts the buffer of the connection in place, however much of it is new.

* `RemoteReader.receive_records` — records that arrive whole are decrypted one by one.
* `RemoteReader.length_decrypted` — without a kick there is one value for each chunk.
* `relay_stream` — so the values are those that were sent exactly if every chunk is a record.
-/

namespace RemoteReader

/-- What `recv` returns: some bytes, not more than there is room for. -/
abbrev Chunk := { bytes : List UInt8 // bytes ≠ [] ∧ bytes.length ≤ kDataLen }

/-- `Secure::CreateBuffer`. -/
def createBuffer : List UInt8 := List.replicate kDataLen 0

/-- The connection to a collector, with the values that `handle_message` has decrypted. -/
structure Peer where
  buffer : List UInt8 := createBuffer
  decrypted : List Data := []
  kicked : Bool := false
  deriving DecidableEq

/-- `handle_message`, up to where it has decrypted the value. -/
def handleMessage (peer : Peer) (chunk : Chunk) : Option Peer :=
  let buf := chunk.1 ++ peer.buffer.drop chunk.1.length   -- `recv`
  (decrypt buf (List.replicate Codec.kDataSize 0)).map fun r =>
    if r.ok then
      { peer with buffer := r.s, decrypted := peer.decrypted ++ [Data.ofBytes r.data] }
    else { peer with buffer := r.s, kicked := true }

/-- The chunks of a connection.  There is no further event once the peer is kicked out. -/
def receive (peer : Peer) : List Chunk → Option Peer
  | []              => some peer
  | chunk :: chunks =>
    (handleMessage peer chunk).bind fun peer =>
      if peer.kicked then some peer else receive peer chunks

/-- The records of these values. -/
def Sent : List Data → List (List UInt8) → Prop :=
  List.Forall₂ fun x record => ∃ mask, encrypt x.block mask = some record

/-! ### Whole records -/

/-- **A whole record is decrypted**, and its value comes behind the others; the buffer is as long as
    before. -/
theorem handleMessage_record {peer : Peer} {x : Data} {mask : UInt8} {chunk : Chunk}
    (hbuf : peer.buffer.length = kDataLen) (hrecord : encrypt x.block mask = some chunk.1) :
    handleMessage peer chunk = some { peer with
      buffer := SECRET ++ mask :: x.block.1, decrypted := peer.decrypted ++ [x] } := by
  obtain ⟨hlen, hdecrypt⟩ :=
    Secure.decrypt_of_encrypt hrecord ⟨List.replicate Codec.kDataSize 0, rfl⟩
  have hnew : chunk.1 ++ peer.buffer.drop chunk.1.length = chunk.1 := by
    rw [List.drop_of_length_le (by omega), List.append_nil]
  unfold handleMessage
  simp only [hnew, hdecrypt, Option.map_some, Data.ofBytes_block, if_true]

/-- **Records that arrive whole** are decrypted one by one, and the connection is kept. -/
theorem receive_records {values : List Data} {records : List (List UInt8)}
    (hsent : Sent values records) {chunks : List Chunk} (hchunks : chunks.map Subtype.val = records)
    {peer : Peer} (hbuf : peer.buffer.length = kDataLen) (hkicked : peer.kicked = false) :
    ∃ peer', receive peer chunks = some peer' ∧ peer'.decrypted = peer.decrypted ++ values ∧
      peer'.kicked = false := by
  induction hsent generalizing chunks peer with
  | nil =>
    rw [List.map_eq_nil_iff] at hchunks
    subst hchunks
    exact ⟨peer, rfl, (List.append_nil _).symm, hkicked⟩
  | @cons x record values records hrecord _ ih =>
    obtain ⟨chunk, chunks, rfl, rfl, hrest⟩ := List.map_eq_cons_iff.mp hchunks
    obtain ⟨mask, hmask⟩ := hrecord
    have hblock := x.block.2
    have hbuf' : (SECRET ++ mask :: x.block.1).length = kDataLen := by
      simp [SECRET, hblock, kDataLen, Codec.kDataSize]
    obtain ⟨peer', hpeer', hvalues, hkicked'⟩ :=
      @ih chunks hrest ⟨SECRET ++ mask :: x.block.1, peer.decrypted ++ [x], peer.kicked⟩ hbuf'
        hkicked
    refine ⟨peer', ?_, ?_, hkicked'⟩
    · rw [receive, handleMessage_record hbuf hmask, Option.bind_some, if_neg (by simp [hkicked])]
      exact hpeer'
    · rw [hvalues, List.append_assoc]
      rfl

/-! ### One value for each chunk -/

/-- A chunk that does not lead to a kick gives one value, be it right or wrong. -/
theorem handleMessage_length {peer peer' : Peer} {chunk : Chunk}
    (h : handleMessage peer chunk = some peer') (hkicked : peer'.kicked = false) :
    peer'.decrypted.length = peer.decrypted.length + 1 := by
  obtain ⟨r, -, rfl⟩ := Option.map_eq_some_iff.mp h
  split_ifs at hkicked ⊢ with hok
  · simp

/-- So there are as many values as chunks: each of them was decrypted, or else the connection would
    have been kicked. -/
theorem length_decrypted {peer peer' : Peer} {chunks : List Chunk}
    (h : receive peer chunks = some peer') (hkicked : peer'.kicked = false) :
    peer'.decrypted.length = peer.decrypted.length + chunks.length := by
  induction chunks generalizing peer with
  | nil =>
    cases h
    rfl
  | cons chunk chunks ih =>
    obtain ⟨mid, hmid, hrest⟩ := Option.bind_eq_some_iff.mp h
    split_ifs at hrest with hmk
    · cases hrest
      rw [hmk] at hkicked
      cases hkicked
    · have hone := handleMessage_length hmid (by simpa using hmk)
      have hmany := ih hrest
      rw [List.length_cons]
      omega

/-! ### The stream -/

/-- Every record has its fixed length. -/
theorem length_records {values : List Data} {records : List (List UInt8)}
    (hsent : Sent values records) : ∀ record ∈ records, record.length = kDataLen := by
  induction hsent with
  | nil => simp
  | @cons x record values records hrecord _ ih =>
    obtain ⟨mask, hmask⟩ := hrecord
    rw [List.forall_mem_cons]
    exact ⟨(Secure.decrypt_of_encrypt hmask x.block).1, ih⟩

/-- The bytes of pieces of one length. -/
theorem length_flatten {n : Nat} {l : List (List UInt8)} (h : ∀ c ∈ l, c.length = n) :
    l.flatten.length = l.length * n := by
  induction l with
  | nil => simp
  | cons c l ih =>
    rw [List.forall_mem_cons] at h
    rw [List.flatten_cons, List.length_append, h.1, ih h.2, List.length_cons, Nat.succ_mul,
      Nat.add_comm]

/-- The bytes of pieces that are not longer. -/
theorem length_flatten_le {n : Nat} {l : List (List UInt8)} (h : ∀ c ∈ l, c.length ≤ n) :
    l.flatten.length ≤ l.length * n := by
  induction l with
  | nil => simp
  | cons c l ih =>
    rw [List.forall_mem_cons] at h
    have hrest := ih h.2
    rw [List.flatten_cons, List.length_append, List.length_cons, Nat.succ_mul]
    omega

/-- Chunks that are not longer than a record, and together as long as that many records. -/
theorem length_of_flatten {n : Nat} {l : List (List UInt8)} (hle : ∀ c ∈ l, c.length ≤ n)
    (h : l.length * n ≤ l.flatten.length) : ∀ c ∈ l, c.length = n := by
  induction l with
  | nil => simp
  | cons c l ih =>
    rw [List.forall_mem_cons] at hle ⊢
    have hrest := length_flatten_le hle.2
    rw [List.flatten_cons, List.length_append, List.length_cons, Nat.succ_mul] at h
    exact ⟨by omega, ih hle.2 (by omega)⟩

/-- A list of records is determined by the stream. -/
theorem eq_of_flatten_eq {n : Nat} (hn : 0 < n) {l l' : List (List UInt8)}
    (hl : ∀ c ∈ l, c.length = n) (hl' : ∀ c ∈ l', c.length = n) (h : l.flatten = l'.flatten) :
    l = l' := by
  have hlengths : ∀ {l : List (List UInt8)}, (∀ c ∈ l, c.length = n) →
      l.map List.length = List.replicate l.length n := by
    intro l hl
    rw [List.eq_replicate_iff, List.forall_mem_map]
    exact ⟨List.length_map .., hl⟩
  have hcount : l.length * n = l'.length * n := by
    rw [← length_flatten hl, ← length_flatten hl', h]
  rw [List.eq_iff_flatten_eq, hlengths hl, hlengths hl', Nat.eq_of_mul_eq_mul_right hn hcount]
  exact ⟨h, rfl⟩

/-- **Reading the stream of a collector.**  However the records of a connection are split, the
    values that `handle_message` decrypts are those that were sent, and the peer is not kicked out,
    exactly if each call of `recv` returns a whole record. -/
theorem relay_stream {values : List Data} {records : List (List UInt8)} (chunks : List Chunk)
    (hsent : Sent values records) (hsplit : (chunks.map Subtype.val).flatten = records.flatten) :
    (∃ peer, receive {} chunks = some peer ∧ peer.decrypted = values ∧ peer.kicked = false) ↔
      ∀ chunk ∈ chunks, chunk.1.length = kDataLen := by
  have hrecords := length_records hsent
  have hval : (∀ c ∈ chunks.map Subtype.val, c.length = kDataLen) ↔
      ∀ chunk ∈ chunks, chunk.1.length = kDataLen := List.forall_mem_map
  rw [← hval]
  constructor
  · rintro ⟨peer, hpeer, rfl, hkicked⟩
    -- as many chunks as values, and no chunk is longer than a record
    have hcount : peer.decrypted.length = chunks.length := by
      simpa using length_decrypted hpeer hkicked
    have htotal := length_flatten hrecords
    rw [← hsent.length_eq, hcount, ← hsplit] at htotal
    apply length_of_flatten
    · rw [List.forall_mem_map]
      exact fun chunk _ => chunk.2.2
    · rw [List.length_map, htotal]
  · intro hwhole
    have hchunks : chunks.map Subtype.val = records :=
      eq_of_flatten_eq (by decide) hwhole hrecords hsplit
    exact receive_records hsent hchunks rfl rfl

/-- A record of the value `⟨12, 345⟩` that arrives whole. -/
theorem relay_stream_whole : ∃ peer,
    receive {} [⟨[9, 15, 20, 90, 86, 90, 90, 90, 3, 91, 90, 90, 90, 90, 90, 90], by decide⟩]
      = some peer ∧ peer.decrypted = [⟨12, 345⟩] ∧ peer.kicked = false :=
  (relay_stream _ (.cons ⟨90, by decide⟩ .nil) rfl).mpr (by decide)

/-- The same record in two halves.  What is decrypted first has the second half of an empty buffer,
    and the peer is kicked out for its second half. -/
theorem relay_stream_halves : ∃ (record : List UInt8) (first second : Chunk),
    Sent [⟨12, 345⟩] [record] ∧
    ([first, second].map Subtype.val).flatten = [record].flatten ∧
    ∃ peer, receive {} [first, second] = some peer ∧
      peer.decrypted = [⟨12, 0x5a5a5a5a5a5a5a5a⟩] ∧ peer.kicked = true := by
  refine ⟨[9, 15, 20, 90, 86, 90, 90, 90, 3, 91, 90, 90, 90, 90, 90, 90],
    ⟨[9, 15, 20, 90, 86, 90, 90, 90], by decide⟩, ⟨[3, 91, 90, 90, 90, 90, 90, 90], by decide⟩,
    .cons ⟨90, by decide⟩ .nil, rfl, _, rfl, ?_, ?_⟩
  · decide
  · decide

end RemoteReader

end CPlayground.Relay
