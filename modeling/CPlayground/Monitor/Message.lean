import CPlayground.Lib.Bytes
import Mathlib.Tactic.Linarith

namespace CPlayground.Monitor

open CPlayground.Bytes

/-!
# Messages: packing, unpacking and framing

The wire format of `message.h` and `message.cpp`.  A `std::string` and a `std::vector<char>` are
byte lists, an `int` is an `Int32`, a scalar is stored as its little-endian memory image.

* `Packer`/`Unpacker` — the field encoders the messages are built from.
* `MsgRequest`, `MsgResponse`, `MsgHeartbeat` — the three payloads the listener handles.
* `MsgRaw.read`/`MsgRaw.write` — an eight-byte header (type, length) in front of a payload, on a
  byte stream.  `recv` with `MSG_WAITALL` returns what was asked for unless the stream ends, and
  `writev` writes everything.
* `framing_roundtrip` — what is written is read back, and a stream cut anywhere yields exactly the
  messages whose frames lie wholly before the cut.
-/

/-! ### Packing and unpacking -/

/-- `Packer::pack(const std::string &)`: the length, the characters and a NUL, or just the length
    of an empty string. -/
def packString (t : List UInt8) : List UInt8 :=
  if t.isEmpty then int32 0 else int32 (Int32.ofNat t.length) ++ t ++ [0]

/-- `Packer::pack(const std::vector<char> &)`: the length and the elements. -/
def packVector (t : List UInt8) : List UInt8 :=
  if t.isEmpty then int32 0 else int32 (Int32.ofNat t.length) ++ t

/-- `Unpacker`: a buffer and the offset of the cursor `data_` in it. -/
structure Unpacker where
  buf : List UInt8
  data : Nat
  deriving DecidableEq, Repr

namespace Unpacker

/-- `Unpacker(const std::string &)`. -/
def new (v : List UInt8) : Unpacker := ⟨v, 0⟩

/-- `unpack(T &)` for a scalar of `size` bytes: its bytes and the unpacker after them. -/
def unpackScalar (r : Unpacker) (size : Nat) : Option (List UInt8 × Unpacker) :=
  if r.data + size > r.buf.length then none
  else some ((r.buf.drop r.data).take size, { r with data := r.data + size })

/-- `unpack(int &)`. -/
def unpackInt (r : Unpacker) : Option (Int32 × Unpacker) :=
  (r.unpackScalar 4).map fun p => (ofInt32 p.1, p.2)

/-- `unpack(double &)`, as the bit pattern of the double. -/
def unpackDouble (r : Unpacker) : Option (UInt64 × Unpacker) :=
  (r.unpackScalar 8).map fun p => (ofWord64 p.1, p.2)

end Unpacker

/-- `MsgRequest`. -/
structure MsgRequest where
  op : Int32
  arg : Int32
  deriving DecidableEq, Repr

namespace MsgRequest

/-- `MsgRequest::pack`. -/
def pack (m : MsgRequest) : List UInt8 := int32 m.op ++ int32 m.arg

/-- `MsgRequest::unpack(Unpacker *)`.  The fields are stored as they are read, so a failure at the
    second one has already replaced the first. -/
def unpack (m : MsgRequest) (r : Unpacker) : Bool × MsgRequest × Unpacker :=
  match r.unpackInt with
  | none => (false, m, r)
  | some (op, r) =>
    match r.unpackInt with
    | none => (false, { m with op := op }, r)
    | some (arg, r) => (true, ⟨op, arg⟩, r)

end MsgRequest

/-- `MsgResponse`. -/
structure MsgResponse where
  r1 : List UInt8
  r2 : List UInt8
  deriving DecidableEq, Repr

/-- `MsgResponse::pack`. -/
def MsgResponse.pack (m : MsgResponse) : List UInt8 := packString m.r1 ++ packVector m.r2

/-- `MsgHeartbeat`; the double is kept as its bit pattern. -/
structure MsgHeartbeat where
  timestamp : UInt64
  deriving DecidableEq, Repr

namespace MsgHeartbeat

/-- The constructor; `0xbff0000000000000` is the double `-1`. -/
def new : MsgHeartbeat := ⟨0xbff0000000000000⟩

/-- `MsgHeartbeat::pack`. -/
def pack (m : MsgHeartbeat) : List UInt8 := word64 m.timestamp

/-- `MsgHeartbeat::unpack(Unpacker *)`. -/
def unpack (m : MsgHeartbeat) (r : Unpacker) : Bool × MsgHeartbeat × Unpacker :=
  match r.unpackDouble with
  | none => (false, m, r)
  | some (ts, r) => (true, ⟨ts⟩, r)

end MsgHeartbeat

/-! ### `MsgType` -/

/-- What the header of a new message has. -/
def MSGNOTHING : Int32 := 0

/-- A request of the peer. -/
def MSGREQUEST : Int32 := 1

/-- The response to a request. -/
def MSGRESPONSE : Int32 := 2

/-- A heartbeat of the listener. -/
def MSGPING : Int32 := 3

/-- The answer of the peer to a heartbeat. -/
def MSGPONG : Int32 := 4

/-! ### Framing -/

/-- `header`. -/
structure Header where
  t : Int32
  l : Int32

namespace Header

/-- The memory image of a header. -/
def bytes (h : Header) : List UInt8 := int32 h.t ++ int32 h.l

/-- The header eight bytes stand for. -/
def ofBytes (bs : List UInt8) : Header := ⟨ofInt32 (bs.take 4), ofInt32 (bs.drop 4)⟩

/-- A header has eight bytes. -/
@[simp] theorem length_bytes (h : Header) : h.bytes.length = 8 := by
  simp [bytes]

/-- **Round trip** of a header. -/
@[simp] theorem ofBytes_bytes (h : Header) : ofBytes h.bytes = h := by
  have h1 : h.bytes.take 4 = int32 h.t := List.take_left' (length_int32 h.t)
  have h2 : h.bytes.drop 4 = int32 h.l := List.drop_left' (length_int32 h.t)
  rw [ofBytes, h1, h2, ofInt32_int32, ofInt32_int32]

end Header

/-- `MsgRaw`. -/
structure MsgRaw where
  type : Int32
  payload : List UInt8
  deriving DecidableEq, Repr

/-- `recv(fd, buf, n, MSG_WAITALL)` on a byte stream: the bytes received and the stream left. -/
def recv (stream : List UInt8) (n : Nat) : List UInt8 × List UInt8 := (stream.take n, stream.drop n)

/-- `std::string::resize`. -/
def resize (s : List UInt8) (n : Nat) : List UInt8 := s.take n ++ List.replicate (n - s.length) 0

namespace MsgRaw

/-- A default-constructed `MsgRaw`. -/
def fresh : MsgRaw := ⟨MSGNOTHING, []⟩

/-- What `MsgRaw::read` returns, with the object and the stream it leaves. -/
structure ReadResult where
  ok : Bool
  msg : MsgRaw
  stream : List UInt8

/-- `MsgRaw::read`. -/
def read (m : MsgRaw) (stream : List UInt8) : ReadResult :=
  let head := recv stream 8
  if head.1.length ≠ 8 then ⟨false, m, head.2⟩
  else
    let hdr := Header.ofBytes head.1
    if hdr.l.toInt ≤ 0 then ⟨true, { m with type := hdr.t }, head.2⟩
    else
      let l := hdr.l.toInt.toNat
      let body := recv head.2 l
      -- the received bytes overwrite the front of the resized payload
      ⟨decide (body.1.length = l),
        ⟨hdr.t, body.1 ++ (resize m.payload l).drop body.1.length⟩, body.2⟩

/-- The header `MsgRaw::write` puts in front of the payload. -/
def header (m : MsgRaw) : Header := ⟨m.type, Int32.ofNat m.payload.length⟩

/-- The bytes of the two `iovec`s `MsgRaw::write` hands to `writev`. -/
def frame (m : MsgRaw) : List UInt8 := m.header.bytes ++ m.payload

/-- `sizeof(hdr) + payload.size()`. -/
def frameLength (m : MsgRaw) : Nat := 8 + m.payload.length

/-- `MsgRaw::write` on a byte stream: the return value and the stream afterwards. -/
def write (m : MsgRaw) (stream : List UInt8) : Bool × List UInt8 :=
  (decide ((m.frame.length : Int) = (Int32.ofNat m.frameLength).toInt), stream ++ m.frame)

/-- The frame length is representable as an `int`. -/
def Fits (m : MsgRaw) : Prop := m.frameLength < 2 ^ 31

/-- A frame has its header and its payload. -/
@[simp] theorem length_frame (m : MsgRaw) : m.frame.length = m.frameLength := by
  simp [frame, frameLength]

/-- A number below `2 ^ 31` is its own `int` value. -/
theorem toInt_ofNat_of_lt {n : Nat} (h : n < 2 ^ 31) : (Int32.ofNat n).toInt = n := by
  rw [Int32.toInt_ofNat']
  apply Int.bmod_eq_of_le
  · simp only [Int32.size]; omega
  · simp only [Int32.size]; omega

/-- A write of a message that fits succeeds. -/
theorem write_eq (m : MsgRaw) (stream : List UInt8) (h : m.Fits) :
    m.write stream = (true, stream ++ m.frame) := by
  have hlen : (m.frame.length : Int) = (Int32.ofNat m.frameLength).toInt := by
    rw [toInt_ofNat_of_lt h, length_frame]
  rw [write, decide_eq_true hlen]

/-- The first eight bytes of a frame are its header. -/
theorem recv_frame (m : MsgRaw) (rest : List UInt8) :
    recv (m.frame ++ rest) 8 = (m.header.bytes, m.payload ++ rest) := by
  have hlen : m.header.bytes.length = 8 := Header.length_bytes _
  rw [recv, frame, List.append_assoc, List.take_left' hlen, List.drop_left' hlen]

/-- **One frame.**  Reading a fresh object from a stream that starts with the frame of `m` yields
    `m` and leaves the rest of the stream. -/
theorem read_frame (m : MsgRaw) (rest : List UInt8) (h : m.Fits) :
    fresh.read (m.frame ++ rest) = ⟨true, m, rest⟩ := by
  have hl : m.header.l.toInt = m.payload.length :=
    toInt_ofNat_of_lt (show m.payload.length < 2 ^ 31 by unfold Fits frameLength at h; omega)
  rw [read]
  simp only [recv_frame, Header.length_bytes, Header.ofBytes_bytes, hl]
  by_cases hempty : m.payload = []
  · -- an empty payload takes the branch `hdr.l <= 0`
    simp only [hempty]
    cases m
    simp_all [fresh, header]
  · have hpos : 0 < m.payload.length := List.length_pos_iff.mpr hempty
    have hnle : ¬ ((m.payload.length : Int) ≤ 0) := by omega
    simp only [ne_eq, not_true_eq_false, if_false, hnle, Int.toNat_natCast, recv,
      List.take_left', List.drop_left', decide_true]
    simp [fresh, resize, header]

/-- A stream that ends inside the first frame makes the read fail, whether in the header or in the
    payload. -/
theorem read_truncated (m : MsgRaw) (rest : List UInt8) (h : m.Fits) {k : Nat}
    (hk : k < m.frameLength) : (fresh.read ((m.frame ++ rest).take k)).ok = false := by
  have hl : m.header.l.toInt = m.payload.length :=
    toInt_ofNat_of_lt (show m.payload.length < 2 ^ 31 by unfold Fits frameLength at h; omega)
  have hlen : (m.frame ++ rest).length = m.frameLength + rest.length := by simp
  unfold frameLength at hk hlen
  rw [read]
  by_cases h8 : k < 8
  · -- the header itself is cut
    have hshort : (recv ((m.frame ++ rest).take k) 8).1.length ≠ 8 := by
      simp only [recv, List.length_take]
      omega
    simp only [hshort, ne_eq, not_false_eq_true, if_true]
  · -- the header is whole, the payload is cut
    have hhead : (recv ((m.frame ++ rest).take k) 8).1 = m.header.bytes := by
      have hrecv := congrArg Prod.fst (recv_frame m rest)
      simp only [recv] at hrecv ⊢
      rw [List.take_take, min_eq_left (by omega), hrecv]
    have hbody : (recv (recv ((m.frame ++ rest).take k) 8).2 m.payload.length).1.length
        ≠ m.payload.length := by
      simp only [recv, List.length_take, List.length_drop, hlen]
      omega
    have hpos : ¬ ((m.payload.length : Int) ≤ 0) := by omega
    simp only [hhead, Header.length_bytes, Header.ofBytes_bytes, hl, hpos, ne_eq,
      not_true_eq_false, if_false, Int.toNat_natCast]
    exact decide_eq_false hbody

/-- A successful read consumes at least its header, so that reading one message after another comes
    to an end. -/
theorem read_stream_lt (m : MsgRaw) (stream : List UInt8) (h : (m.read stream).ok = true) :
    (m.read stream).stream.length < stream.length := by
  rw [read] at h ⊢
  by_cases h8 : (recv stream 8).1.length ≠ 8
  · simp only [h8, ne_eq, not_false_eq_true, if_true] at h
    cases h
  · have hlen : 8 ≤ stream.length := by
      simp only [recv, List.length_take] at h8
      omega
    simp only [h8, if_false]
    split
    · simp only [recv, List.length_drop]
      omega
    · simp only [recv, List.length_drop]
      omega

/-- Successive `MsgRaw::read` calls into fresh objects, up to the first that returns false: the
    messages read, and the stream at the failing call. -/
def readAll (stream : List UInt8) : List MsgRaw × List UInt8 :=
  if h : (fresh.read stream).ok = true then
    have := read_stream_lt fresh stream h
    let rest := readAll (fresh.read stream).stream
    ((fresh.read stream).msg :: rest.1, rest.2)
  else ([], stream)
termination_by stream.length

/-- Successive `MsgRaw::write` calls on one stream, and whether all of them returned true. -/
def writeAll (ms : List MsgRaw) : Bool × List UInt8 :=
  ms.foldl (fun acc m => (acc.1 && (m.write acc.2).1, (m.write acc.2).2)) (true, [])

/-- The messages whose frames lie wholly within the first `k` bytes. -/
def wholeBefore : List MsgRaw → Nat → List MsgRaw
  | [],      _ => []
  | m :: ms, k =>
    if m.frameLength ≤ k then m :: wholeBefore ms (k - m.frameLength) else []

/-- The writes produce the concatenation of the frames, if every payload fits; none of them
    fails. -/
theorem writeAll_eq (ms : List MsgRaw) (hfit : ∀ m ∈ ms, m.Fits) :
    writeAll ms = (true, (ms.map frame).flatten) := by
  have hfold : ∀ (ms : List MsgRaw) (stream : List UInt8), (∀ m ∈ ms, m.Fits) →
      ms.foldl (fun acc m => (acc.1 && (m.write acc.2).1, (m.write acc.2).2)) (true, stream)
        = (true, stream ++ (ms.map frame).flatten) := by
    intro ms
    induction ms with
    | nil => intro stream _; simp
    | cons m ms ih =>
      intro stream hfit
      have hm : m.Fits := hfit m (by simp)
      rw [List.foldl_cons, write_eq m stream hm]
      rw [Bool.true_and, ih _ (fun m' hm' => hfit m' (by simp [hm']))]
      simp
  simpa [writeAll] using hfold ms [] hfit

/-- The call after the last successful read fails. -/
theorem read_after_readAll (stream : List UInt8) :
    (fresh.read (readAll stream).2).ok = false := by
  fun_induction readAll stream with
  | case1 stream h _ rest ih => exact ih
  | case2 stream h => simpa using h

/-- Reading a stream cut at any position yields the messages whose frames are whole. -/
theorem readAll_take (ms : List MsgRaw) (hfit : ∀ m ∈ ms, m.Fits) (k : Nat) :
    (readAll (((ms.map frame).flatten).take k)).1 = wholeBefore ms k := by
  induction ms generalizing k with
  | nil =>
    have hfail : (fresh.read []).ok = false := rfl
    rw [readAll]
    simp [wholeBefore, hfail]
  | cons m ms ih =>
    have hm : m.Fits := hfit m (by simp)
    have ih' := ih (fun m' hm' => hfit m' (by simp [hm']))
    rw [List.map_cons, List.flatten_cons, wholeBefore]
    by_cases hk : m.frameLength ≤ k
    · -- the first frame is whole: it is read, and the cut moves into the rest
      have htake : (m.frame ++ (ms.map frame).flatten).take k
          = m.frame ++ ((ms.map frame).flatten).take (k - m.frameLength) := by
        rw [List.take_append, length_frame, List.take_of_length_le (by simpa using hk)]
      rw [htake, readAll, if_pos hk]
      simp only [read_frame m _ hm, dite_true, ih']
    · have hfail := read_truncated m (ms.map frame).flatten hm (not_le.mp hk)
      rw [readAll, if_neg hk]
      simp [hfail]

/-- Every frame is whole when nothing is cut off. -/
theorem wholeBefore_all (ms : List MsgRaw) :
    wholeBefore ms ((ms.map frame).flatten).length = ms := by
  induction ms with
  | nil => rfl
  | cons m ms ih =>
    rw [List.map_cons, List.flatten_cons, List.length_append, length_frame, wholeBefore,
      if_pos (Nat.le_add_right _ _), Nat.add_sub_cancel_left, ih]

/-- **Message framing.**  The stream written by successive writes of messages that fit is read back
    as the same list; cut at any byte position, it yields exactly the messages whose frames lie
    wholly before the cut, and the next read returns false. -/
theorem framing_roundtrip (ms : List MsgRaw) (hfit : ∀ m ∈ ms, m.Fits) :
    (writeAll ms).1 = true ∧ (readAll (writeAll ms).2).1 = ms ∧
      ∀ k, (readAll ((writeAll ms).2.take k)).1 = wholeBefore ms k ∧
        (fresh.read (readAll ((writeAll ms).2.take k)).2).ok = false := by
  rw [writeAll_eq ms hfit]
  refine ⟨rfl, ?_, fun k => ⟨readAll_take ms hfit k, read_after_readAll _⟩⟩
  have hall := readAll_take ms hfit ((ms.map frame).flatten).length
  rwa [List.take_length, wholeBefore_all] at hall

/-- A request and an empty ping, cut one byte before the end of the second frame. -/
theorem framing_roundtrip_request_ping :
    let ms := [⟨MSGREQUEST, (MsgRequest.mk 7 9).pack⟩, ⟨MSGPING, []⟩]
    (readAll (writeAll ms).2).1 = ms ∧
      (readAll ((writeAll ms).2.take 23)).1 = [⟨MSGREQUEST, (MsgRequest.mk 7 9).pack⟩] := by
  have hfit : ∀ m ∈ [MsgRaw.mk MSGREQUEST (MsgRequest.mk 7 9).pack, ⟨MSGPING, []⟩], m.Fits := by
    unfold Fits
    decide
  have h := framing_roundtrip _ hfit
  exact ⟨h.2.1, (h.2.2 23).1⟩

end MsgRaw

end CPlayground.Monitor
