import CPlayground.Lib.Bytes
import CPlayground.Lib.Memory
import Mathlib.Data.List.Infix

namespace CPlayground.RandomReader

open Memory

/-!
# The buffered reader of entropy

`RandomReader` hands out the bytes of a file through a buffer of 1024 bytes.  The index of the
buffer starts behind its end, and a request refills the buffer in its middle whenever the index
comes there.  A `read` is one that gives a full buffer.

* `Sound` — the bytes from the index on are the ones that come next in the stream.
* `fetchLoop_eq` — so a request of any length stores the bytes that come next.
* `entropy_in_order` — all requests together get the beginning of the stream, each byte after the
  `read` that has brought it.
* `shorts_in_order` — calls of `GetShort` behind them get the shorts that come next.
-/

/-- `kBufferSize`. -/
def kBufferSize : Nat := 1024

/-- What a reader does: it calls `read`, and it gives a byte to the caller. -/
inductive Event where
  | read
  | deliver (c : UInt8)
  deriving DecidableEq

/-- A `RandomReader`: `i_`, `buf_`, the offset of its file, and what it has done. -/
structure Reader where
  i : Nat
  buf : Mem
  offset : Nat
  trace : List Event

/-- `RandomReader(file)`, for a file that can be opened. -/
def start : Reader := { i := kBufferSize, buf := malloc kBufferSize, offset := 0, trace := [] }

variable (stream : Nat → UInt8)

/-- `k` bytes of the stream from number `n` on. -/
def chunk (n k : Nat) : List UInt8 := (List.range' n k).map stream

/-- `read(GetFd(), buf_, kBufferSize)`. -/
def Reader.read (r : Reader) : Reader :=
  { r with
    buf := (chunk stream r.offset kBufferSize).map some
    offset := r.offset + kBufferSize
    trace := r.trace ++ [.read] }

/-- The first statement in the loop of `Fetch`. -/
def Reader.refill (r : Reader) : Reader :=
  if r.i + 1 > kBufferSize then Reader.read stream { r with i := 0 } else r

/-- The second one, `*p++ = buf_[i_++]` for `p = data + k`. -/
def Reader.next (r : Reader) (data : Mem) (k : Nat) : Option (Reader × Mem) :=
  (load r.buf r.i).bind fun c => (write data k c).map fun data =>
    ({ r with i := r.i + 1, trace := r.trace ++ [.deliver c] }, data)

/-- The loop of `Fetch`, with `len` bytes to go. -/
def fetchLoop : Nat → Reader → Mem → Nat → Option (Reader × Mem)
  | 0,       r, data, _ => some (r, data)
  | len + 1, r, data, k =>
    ((r.refill stream).next data k).bind fun s => fetchLoop len s.1 s.2 (k + 1)

/-- `Fetch(data, len)`. -/
def fetch (r : Reader) (data : Mem) (len : Nat) : Option (Reader × Mem) :=
  if len ≠ 0 then fetchLoop stream len r data 0 else some (r, data)

/-- `GetShort()`: a `short` is two bytes, the lower one first. -/
def getShort (r : Reader) : Option (Reader × Int) :=
  (fetch stream r [some 0, some 0] 2).bind fun s =>
    (load s.2 0).bind fun lo => (load s.2 1).map fun hi =>
      (s.1, ((Bytes.decode [lo, hi] : Int) + 2 ^ 15) % 2 ^ 16 - 2 ^ 15)

/-- Calls of `GetShort` one after another. -/
def getShorts : Nat → Reader → Option (Reader × List Int)
  | 0,     r => some (r, [])
  | k + 1, r => (getShort stream r).bind fun s =>
      (getShorts k s.1).map fun t => (t.1, s.2 :: t.2)

/-- The arguments of a call of `Fetch`: the memory at `data` has room for `len` bytes. -/
structure Request where
  data : Mem
  len : Nat
  room : len ≤ data.length

/-- Calls of `Fetch` one after another, and the memory that each one has filled. -/
def fetchAll : Reader → List Request → Option (Reader × List Mem)
  | r, []      => some (r, [])
  | r, q :: qs => (fetch stream r q.data q.len).bind fun s =>
      (fetchAll s.1 qs).map fun t => (t.1, s.2 :: t.2)

/-! ### What the requests are for -/

/-- The byte that an event gives to the caller. -/
def Event.byte : Event → Option UInt8
  | .read      => none
  | .deliver c => some c

/-- The bytes that the caller gets. -/
def delivered (es : List Event) : List UInt8 := es.filterMap Event.byte

/-- How many bytes the requests are for. -/
def total (qs : List Request) : Nat := qs.foldr (fun q n => q.len + n) 0

/-- The memory of the requests, with the given bytes spread over it. -/
def place : List Request → List UInt8 → List Mem
  | [],      _  => []
  | q :: qs, bs => ((bs.take q.len).map some ++ q.data.drop q.len) :: place qs (bs.drop q.len)

/-- The caller has got `n` bytes, and the buffer has the ones that come next.  `ahead` speaks of
    every prefix of the history: a byte is delivered only after the `read` that has brought it. -/
structure Sound (r : Reader) (n : Nat) : Prop where
  i_le : r.i ≤ kBufferSize
  offset : r.offset + r.i = n + kBufferSize
  rest : r.buf.drop r.i = (chunk stream n (kBufferSize - r.i)).map some
  delivered : delivered r.trace = chunk stream 0 n
  reads : r.offset = kBufferSize * r.trace.count .read
  ahead : ∀ es, es <+: r.trace → (RandomReader.delivered es).length ≤ kBufferSize * es.count .read

variable {stream} {r : Reader} {n : Nat}

/-- A piece has as many bytes as it says. -/
@[simp] theorem length_chunk (n k : Nat) : (chunk stream n k).length = k := by simp [chunk]

/-- A piece of the stream from its first byte on. -/
theorem chunk_succ (n k : Nat) : chunk stream n (k + 1) = stream n :: chunk stream (n + 1) k := by
  rw [chunk, List.range'_succ]
  rfl

/-- The beginning of the stream. -/
theorem chunk_zero (k : Nat) : chunk stream 0 k = (List.range k).map stream := by
  rw [chunk, ← List.range_eq_range']

/-- A piece of the stream is made of two that are next to each other. -/
theorem chunk_add (n k l : Nat) :
    chunk stream n (k + l) = chunk stream n k ++ chunk stream (n + k) l := by
  rw [chunk, ← List.range'_append_1, List.map_append]
  rfl

/-- A `read` gives nothing to the caller. -/
@[simp] theorem delivered_concat_read (es : List Event) :
    delivered (es ++ [.read]) = delivered es := by
  simp [delivered, Event.byte]

/-- A byte comes behind the ones that the caller has. -/
@[simp] theorem delivered_concat_deliver (es : List Event) (c : UInt8) :
    delivered (es ++ [.deliver c]) = delivered es ++ [c] := by
  simp [delivered, Event.byte]

/-- Nothing was read: the index stands behind the end of the buffer. -/
theorem sound_start (stream : Nat → UInt8) : Sound stream start 0 where
  i_le := Nat.le_refl _
  offset := rfl
  rest := by
    rw [start, Nat.sub_self, malloc, List.drop_replicate, Nat.sub_self]
    rfl
  delivered := rfl
  reads := rfl
  ahead := by
    intro es hes
    rw [List.prefix_nil.mp hes]
    exact Nat.zero_le _

/-! ### One byte -/

/-- At the end of the buffer the next one is read, and its first byte is the next one. -/
theorem Sound.read (h : Sound stream r n) (hi : r.i = kBufferSize) :
    Sound stream (Reader.read stream { r with i := 0 }) n := by
  -- the index is at the end, so all that was read has been delivered
  obtain rfl : r.offset = n := by
    have := h.offset
    omega
  refine ⟨Nat.zero_le _, rfl, rfl, ?_, ?_, ?_⟩
  · exact (delivered_concat_read _).trans h.delivered
  · show _ = kBufferSize * (r.trace ++ [Event.read]).count .read
    rw [List.count_append, Nat.mul_add, ← h.reads]
    rfl
  · intro es hes
    rcases List.prefix_concat_iff.mp hes with rfl | hes
    · -- the bytes that the caller has are the ones of the buffers before
      rw [delivered_concat_read, h.delivered, length_chunk, List.count_append, Nat.mul_add,
        ← h.reads]
      exact Nat.le_add_right _ _
    · exact h.ahead es hes

/-- After the test for the end the index is in the buffer. -/
theorem Sound.refill (h : Sound stream r n) :
    Sound stream (r.refill stream) n ∧ (r.refill stream).i < kBufferSize := by
  have hle := h.i_le
  rw [Reader.refill]
  split
  · exact ⟨h.read (by omega), Nat.zero_lt_succ 1023⟩
  · exact ⟨h, by omega⟩

/-- The byte at the index is the next one of the stream. -/
theorem Sound.load (h : Sound stream r n) (hi : r.i < kBufferSize) :
    load r.buf r.i = some (stream n) := by
  rw [Memory.load, h.rest, ← Nat.succ_pred_eq_of_pos (Nat.sub_pos_of_lt hi), chunk_succ]
  rfl

/-- One byte is given to the caller, who has got `n + 1` of them then; the `read` that has brought
    it was before. -/
theorem Sound.deliver (h : Sound stream r n) (hi : r.i < kBufferSize) :
    Sound stream { r with i := r.i + 1, trace := r.trace ++ [.deliver (stream n)] } (n + 1) := by
  have hoffset := h.offset
  refine ⟨hi, by show r.offset + (r.i + 1) = _; omega, ?_, ?_, ?_, ?_⟩
  · show r.buf.drop (r.i + 1) = _
    rw [← List.drop_drop, h.rest, ← Nat.succ_pred_eq_of_pos (Nat.sub_pos_of_lt hi), chunk_succ]
    rfl
  · rw [delivered_concat_deliver, h.delivered, chunk_add, Nat.zero_add]
    rfl
  · show _ = kBufferSize * (r.trace ++ [Event.deliver (stream n)]).count .read
    rw [List.count_append, Nat.mul_add, ← h.reads]
    rfl
  · intro es hes
    rcases List.prefix_concat_iff.mp hes with rfl | hes
    · -- the index is in the buffer, so the offset is behind the byte
      rw [delivered_concat_deliver, h.delivered, List.length_append, length_chunk,
        List.count_append, Nat.mul_add, ← h.reads]
      show n + 1 ≤ r.offset + _
      omega
    · exact h.ahead es hes

/-! ### A request -/

/-- **The loop of `Fetch`** stores the bytes that come next, wherever the buffer ends in it. -/
theorem fetchLoop_eq (h : Sound stream r n) (len : Nat) (data : Mem) (k : Nat) :
    ∃ r', fetchLoop stream len r data k = (store data k (chunk stream n len)).map (r', ·) ∧
      Sound stream r' (n + len) := by
  induction len generalizing r n data k with
  | zero => exact ⟨r, rfl, h⟩
  | succ len ih =>
    -- one round delivers `stream n`, from a new buffer if the old one is used up
    obtain ⟨hrefill, hi⟩ := h.refill
    have hload := hrefill.load hi
    rw [fetchLoop, Reader.next, hload, Option.bind_some, chunk_succ, store]
    rw [Nat.add_comm len 1, ← Nat.add_assoc]
    cases write data k (stream n) with
    | none =>
      -- there is no room, so the reader that the loop would leave does not matter
      obtain ⟨r', -, hsound⟩ := ih (hrefill.deliver hi) data (k + 1)
      exact ⟨r', rfl, hsound⟩
    | some data' => exact ih (hrefill.deliver hi) data' (k + 1)

/-- `Fetch` returns, with the next bytes at the beginning of the memory that it was given. -/
theorem fetch_eq (h : Sound stream r n) (q : Request) :
    ∃ r', fetch stream r q.data q.len
        = some (r', (chunk stream n q.len).map some ++ q.data.drop q.len) ∧
      Sound stream r' (n + q.len) := by
  obtain ⟨r', hloop, hsound⟩ := fetchLoop_eq h q.len q.data 0
  have hstore : store q.data 0 (chunk stream n q.len)
      = some ((chunk stream n q.len).map some ++ q.data.drop q.len) := by
    have hlen : (q.data.take q.len).length = (chunk stream n q.len).length := by
      rw [length_chunk, List.length_take_of_le q.room]
    have := store_append [] (q.data.take q.len) (q.data.drop q.len) hlen
    rwa [List.take_append_drop] at this
  rw [hstore] at hloop
  by_cases hzero : q.len = 0
  · -- a request for no bytes does not come to the loop, which would not do anything
    rw [hzero] at hloop ⊢
    exact ⟨r, rfl, h⟩
  · rw [fetch, if_pos hzero]
    exact ⟨r', hloop, hsound⟩

/-- The `short` in the stream from byte number `n` on. -/
def shortAt (stream : Nat → UInt8) (n : Nat) : Int :=
  ((Bytes.decode (chunk stream n 2) : Int) + 2 ^ 15) % 2 ^ 16 - 2 ^ 15

/-- A `short` is made of the two bytes that come next. -/
theorem getShort_eq (h : Sound stream r n) :
    ∃ r', getShort stream r = some (r', shortAt stream n) ∧ Sound stream r' (n + 2) := by
  obtain ⟨r', hfetch, hsound⟩ := fetch_eq h ⟨[some 0, some 0], 2, Nat.le_refl 2⟩
  refine ⟨r', ?_, hsound⟩
  rw [getShort, hfetch]
  rfl

/-- The calls of `GetShort` take two bytes each, the lower one first, and none is skipped between
    two calls. -/
theorem getShorts_eq (h : Sound stream r n) (k : Nat) :
    ∃ r', getShorts stream k r
        = some (r', (List.range k).map fun j => shortAt stream (n + 2 * j)) ∧
      Sound stream r' (n + 2 * k) := by
  induction k generalizing r n with
  | zero => exact ⟨r, rfl, h⟩
  | succ k ih =>
    obtain ⟨r₁, hfirst, hsound₁⟩ := getShort_eq h
    obtain ⟨r₂, hrest, hsound₂⟩ := ih hsound₁
    -- the calls behind the first one count from `n + 2` on
    have hbehind : ∀ j, n + 2 + 2 * j = n + 2 * (j + 1) := fun j => by omega
    simp only [hbehind] at hrest hsound₂
    refine ⟨r₂, ?_, hsound₂⟩
    rw [getShorts, hfirst, Option.bind_some, hrest, Option.map_some, List.range_succ_eq_map,
      List.map_cons, List.map_map]
    rfl

/-! ### All requests -/

/-- The requests, by induction over them: each one starts where the one before it has ended. -/
theorem fetchAll_eq (h : Sound stream r n) (qs : List Request) :
    ∃ r', fetchAll stream r qs = some (r', place qs (chunk stream n (total qs))) ∧
      Sound stream r' (n + total qs) := by
  induction qs generalizing r n with
  | nil => exact ⟨r, rfl, h⟩
  | cons q qs ih =>
    obtain ⟨r₁, hfetch, hsound₁⟩ := fetch_eq h q
    obtain ⟨r₂, hrest, hsound₂⟩ := ih hsound₁
    have htotal : total (q :: qs) = q.len + total qs := rfl
    have htake : (chunk stream n (total (q :: qs))).take q.len = chunk stream n q.len := by
      rw [htotal, chunk_add, List.take_left' (length_chunk n q.len)]
    have hdrop : (chunk stream n (total (q :: qs))).drop q.len
        = chunk stream (n + q.len) (total qs) := by
      rw [htotal, chunk_add, List.drop_left' (length_chunk n q.len)]
    refine ⟨r₂, ?_, by rwa [htotal, ← Nat.add_assoc]⟩
    rw [fetchAll, hfetch, Option.bind_some, hrest, place, htake, hdrop]
    rfl

/-- **The beginning of the stream.**  Requests of any lengths return.  Together they get the first
    bytes of the stream in order, each request its part, and at no time has the caller more bytes
    than have been read. -/
theorem entropy_in_order (stream : Nat → UInt8) (qs : List Request) :
    ∃ r datas, fetchAll stream start qs = some (r, datas) ∧
      delivered r.trace = (List.range (total qs)).map stream ∧
      datas = place qs ((List.range (total qs)).map stream) ∧
      ∀ es, es <+: r.trace → (delivered es).length ≤ kBufferSize * es.count .read := by
  obtain ⟨r, hall, hsound⟩ := fetchAll_eq (sound_start stream) qs
  rw [Nat.zero_add] at hsound
  rw [chunk_zero] at hall
  exact ⟨r, _, hall, hsound.delivered.trans (chunk_zero _), rfl, hsound.ahead⟩

/-- **Shorts behind requests.**  `GetShort` takes its bytes from the same buffer as `Fetch`: called
    `k` times after requests of any lengths, it returns the shorts that stand in the stream behind
    the bytes of the requests, and no byte is passed over or used twice. -/
theorem shorts_in_order (stream : Nat → UInt8) (qs : List Request) (k : Nat) :
    ∃ r datas r', fetchAll stream start qs = some (r, datas) ∧
      getShorts stream k r
        = some (r', (List.range k).map fun j => shortAt stream (total qs + 2 * j)) ∧
      delivered r'.trace = (List.range (total qs + 2 * k)).map stream := by
  obtain ⟨r, hall, hsound⟩ := fetchAll_eq (sound_start stream) qs
  rw [Nat.zero_add] at hsound
  obtain ⟨r', hshorts, hsound'⟩ := getShorts_eq hsound k
  exact ⟨r, _, r', hall, hshorts, hsound'.delivered.trans (chunk_zero _)⟩

end CPlayground.RandomReader
