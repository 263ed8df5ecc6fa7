import CPlayground.Monitor.Listener.Model
import CPlayground.Monitor.Packing

namespace CPlayground.Monitor

open CPlayground.Bytes CPlayground.Trace

/-!
# Unpacking into a target that holds something

The decoders write into objects of their callers.  A length of zero leaves a string or a vector as
it is, and a call that fails behind a length or behind a first member has moved the cursor already,
or has replaced that member.

* `Unpacker.unpackBytes_eq_true`, `unpackBytes_eq_false` — what a call for a string or a vector
  returns.
* `decoded_value` — two targets are equal after a successful call exactly if a length was not zero,
  or they were equal before.
* `failed_decoding` — a call that fails leaves the unpacker and the target alone exactly if it has
  not got past four bytes.
-/

/-! ### What a call returns -/

namespace Unpacked

variable {α β : Type} {x : Unpacked α} {failed : α → β} {next : α → Unpacker → Unpacked β}
  {ok : Bool} {y : β} {r : Unpacker}

/-- Two calls in a row: the second one decides if the first one succeeds. -/
theorem andThen_eq_returned : x.andThen failed next = .returned ok y r ↔
    (∃ t r₁, x = .returned true t r₁ ∧ next t r₁ = .returned ok y r) ∨
      (ok = false ∧ ∃ t, x = .returned false t r ∧ y = failed t) := by
  cases x with
  | returned ok' t r' =>
    cases ok' with
    | true => simp [andThen]
    | false =>
      constructor
      · intro h
        cases h
        exact .inr ⟨rfl, t, rfl, rfl⟩
      · rintro (⟨u, r₁, h, -⟩ | ⟨rfl, u, h, rfl⟩)
        · cases h
        · cases h
          rfl
  | negativeLength | outOfBounds | overflow => simp [andThen]

/-- A result that is put into another object. -/
theorem map_eq_returned {f : α → β} :
    x.map f = .returned ok y r ↔ ∃ t, x = .returned ok t r ∧ y = f t := by
  rw [map, andThen_eq_returned]
  cases ok with
  | true =>
    simp only [returned.injEq, true_and, Bool.true_eq_false, false_and, or_false]
    constructor
    · rintro ⟨t, r₁, rfl, rfl, rfl⟩
      exact ⟨t, rfl, rfl⟩
    · rintro ⟨t, rfl, rfl⟩
      exact ⟨t, r, rfl, rfl, rfl⟩
  | false => simp

end Unpacked

namespace Unpacker

variable {r r' : Unpacker} {extra : Nat} {t u : List UInt8}

/-- The bytes behind the length field that it counts. -/
def contents (r : Unpacker) : List UInt8 :=
  (r.buf.drop (r.data + 4)).take r.lengthField.toInt.toNat

/-- Where a call for a string or a vector that succeeds leaves the cursor. -/
def past (extra : Nat) (r : Unpacker) : Unpacker :=
  { r with data := r.data + 4 +
      if r.lengthField = 0 then 0 else (r.lengthField.toInt + extra).toNat }

/-- What a call for a string or a vector needs to find in the buffer. -/
def Complete (extra : Nat) (r : Unpacker) : Prop :=
  r.data + 4 ≤ r.buf.length ∧ (r.lengthField ≠ 0 →
    0 ≤ r.lengthField.toInt ∧ r.lengthField.toInt + extra < 2 ^ 31 ∧
      (r.data : Int) + 4 + r.lengthField.toInt + extra ≤ r.buf.length)

/-- **A call for a string or a vector succeeds** exactly if the length and the contents are there; a
    length of zero leaves the target alone. -/
theorem unpackBytes_eq_true : r.unpackBytes extra t = .returned true u r' ↔
    r.Complete extra ∧ u = (if r.lengthField = 0 then t else r.contents) ∧ r' = r.past extra := by
  rw [unpackBytes, unpackInt_eq, Complete, past]
  -- the tests of the source, in its order: the four bytes of the length, ...
  by_cases h4 : r.data + 4 ≤ r.buf.length
  swap
  · simp [h4]
  simp only [h4, if_true, true_and]
  -- ... a length of zero, ...
  by_cases hzero : r.lengthField = 0
  · simp only [hzero, if_true, not_true_eq_false, false_imp_iff, Unpacked.returned.injEq, true_and,
      ne_eq, add_zero]
    exact and_congr eq_comm eq_comm
  rw [if_neg hzero, if_neg hzero, if_neg hzero]
  simp only [Nat.cast_add, Nat.cast_ofNat, ne_eq, hzero, not_false_eq_true, true_imp_iff]
  -- ... a field that ends behind the buffer, ...
  by_cases hlong : (r.data : Int) + 4 + r.lengthField.toInt + extra > r.buf.length
  · rw [if_pos hlong]
    simp only [Unpacked.returned.injEq, Bool.false_eq_true, false_and, false_iff]
    omega
  rw [if_neg hlong]
  -- ... and a negative length
  by_cases hneg : r.lengthField.toInt < 0
  · rw [if_pos hneg]
    simp only [reduceCtorEq, false_iff]
    omega
  have hread : r.data + 4 + r.lengthField.toInt.toNat ≤ r.buf.length := by omega
  rw [if_neg hneg, bytes, if_pos hread]
  -- the cursor is moved by a sum of two `int`s
  by_cases hover : 2 ^ 31 ≤ r.lengthField.toInt + extra
  · simp only [if_pos hover, reduceCtorEq, false_iff]
    omega
  · simp only [if_neg hover, Unpacked.returned.injEq, true_and]
    constructor
    · rintro ⟨rfl, rfl⟩
      exact ⟨⟨by omega, by omega, by omega⟩, rfl, rfl⟩
    · rintro ⟨-, rfl, rfl⟩
      exact ⟨rfl, rfl⟩

/-- **It fails** exactly if the length is not there, or if the contents are not; then the cursor
    stands behind the length. -/
theorem unpackBytes_eq_false : r.unpackBytes extra t = .returned false u r' ↔
    u = t ∧ ((r.buf.length < r.data + 4 ∧ r' = r) ∨
      (r.data + 4 ≤ r.buf.length ∧ r.lengthField ≠ 0 ∧
        (r.data : Int) + 4 + r.lengthField.toInt + extra > r.buf.length ∧
        r' = { r with data := r.data + 4 })) := by
  rw [unpackBytes, unpackInt_eq]
  by_cases h4 : r.data + 4 ≤ r.buf.length
  swap
  · rw [if_neg h4]
    simp only [h4, false_and, or_false, not_le.mp h4, Unpacked.returned.injEq, true_and]
    exact and_congr eq_comm eq_comm
  simp only [h4, not_lt.mpr h4, if_true, true_and, false_and, false_or]
  by_cases hzero : r.lengthField = 0
  · simp [hzero]
  rw [if_neg hzero]
  simp only [Nat.cast_add, Nat.cast_ofNat, ne_eq, hzero, not_false_eq_true, true_and]
  -- this test is the only one that returns false once the length is read
  by_cases hlong : (r.data : Int) + 4 + r.lengthField.toInt + extra > r.buf.length
  · rw [if_pos hlong]
    simp only [hlong, Unpacked.returned.injEq, true_and]
    exact and_congr eq_comm eq_comm
  · rw [if_neg hlong]
    simp only [hlong, false_and, and_false, iff_false]
    by_cases hneg : r.lengthField.toInt < 0
    · simp only [if_pos hneg, reduceCtorEq, not_false_eq_true]
    · rw [if_neg hneg]
      split
      · simp only [reduceCtorEq, not_false_eq_true]
      · split <;> simp

end Unpacker

namespace MsgResponse

variable {m n : MsgResponse} {r r' : Unpacker}

/-- A response is unpacked member by member. -/
theorem unpack_eq_true : m.unpack r = .returned true n r' ↔
    ∃ r₁, r.unpackString m.r1 = .returned true n.r1 r₁ ∧
      r₁.unpackVector m.r2 = .returned true n.r2 r' := by
  simp only [unpack, Unpacked.andThen_eq_returned, Unpacked.map_eq_returned, Bool.true_eq_false,
    false_and, or_false]
  constructor
  · rintro ⟨r1, r₁, hstring, r2, hvector, rfl⟩
    exact ⟨r₁, hstring, hvector⟩
  · rintro ⟨r₁, hstring, hvector⟩
    exact ⟨_, r₁, hstring, _, hvector, rfl⟩

/-- A response fails at its string, or at its vector when the string is replaced. -/
theorem unpack_eq_false : m.unpack r = .returned false n r' ↔
    (r.unpackString m.r1 = .returned false n.r1 r' ∧ n.r2 = m.r2) ∨
      ∃ r₁, r.unpackString m.r1 = .returned true n.r1 r₁ ∧
        r₁.unpackVector m.r2 = .returned false n.r2 r' := by
  simp only [unpack, Unpacked.andThen_eq_returned, Unpacked.map_eq_returned, true_and]
  constructor
  · rintro (⟨r1, r₁, hstring, r2, hvector, rfl⟩ | ⟨r1, hstring, rfl⟩)
    · exact .inr ⟨r₁, hstring, hvector⟩
    · exact .inl ⟨hstring, rfl⟩
  · rintro (⟨hstring, hr2⟩ | ⟨r₁, hstring, hvector⟩)
    · exact .inr ⟨_, hstring, by rw [← hr2]⟩
    · exact .inl ⟨_, r₁, hstring, _, hvector, rfl⟩

end MsgResponse

/-- A request fails at its first member, or at its second one when the first is replaced. -/
theorem MsgRequest.unpack_eq_false {m n : MsgRequest} {r r' : Unpacker} :
    m.unpack r = (false, n, r') ↔
      (r.buf.length < r.data + 4 ∧ n = m ∧ r' = r) ∨
        (r.data + 4 ≤ r.buf.length ∧ r.buf.length < r.data + 8 ∧
          n = { m with op := r.lengthField } ∧ r' = { r with data := r.data + 4 }) := by
  rw [unpack, Unpacker.unpackInt_eq]
  by_cases h4 : r.data + 4 ≤ r.buf.length
  swap
  · rw [if_neg h4]
    simp only [h4, not_le.mp h4, Prod.mk.injEq, true_and, false_and, or_false]
    exact and_congr eq_comm eq_comm
  rw [if_pos h4]
  dsimp only
  rw [Unpacker.unpackInt_eq]
  by_cases h8 : r.data + 8 ≤ r.buf.length
  · rw [if_pos h8]
    simp [h4, h8]
  · rw [if_neg h8]
    simp only [h4, not_lt.mpr h4, not_le.mp h8, Prod.mk.injEq, true_and, false_and, false_or]
    exact and_congr eq_comm eq_comm

/-! ### Two targets -/

section

variable {r r' : Unpacker} {extra : Nat}

/-- The bytes of a string or a vector do not depend on the target, but a length of zero leaves the
    target as it is. -/
theorem Unpacker.unpackBytes_agree {t u : List UInt8} (t' : List UInt8)
    (h : r.unpackBytes extra t = .returned true u r') :
    ∃ u', r.unpackBytes extra t' = .returned true u' r' ∧
      (u = u' ↔ r.lengthField ≠ 0 ∨ t = t') := by
  obtain ⟨hcomplete, rfl, rfl⟩ := unpackBytes_eq_true.mp h
  refine ⟨_, unpackBytes_eq_true.mpr ⟨hcomplete, rfl, rfl⟩, ?_⟩
  by_cases hzero : r.lengthField = 0
  · simp [hzero]
  · simp [hzero]

/-- The values that a response is unpacked to agree, given what two targets hold before. -/
def MsgResponse.Agree (m m' : MsgResponse) (r : Unpacker) : Prop :=
  (r.lengthField ≠ 0 ∨ m.r1 = m'.r1) ∧ ((r.past 1).lengthField ≠ 0 ∨ m.r2 = m'.r2)

/-- Two targets of a response agree after a successful call exactly if what was not written agreed
    before. -/
theorem MsgResponse.unpack_agree {m n : MsgResponse} (m' : MsgResponse)
    (h : m.unpack r = .returned true n r') :
    ∃ n', m'.unpack r = .returned true n' r' ∧ (n = n' ↔ Agree m m' r) := by
  obtain ⟨r₁, hstring, hvector⟩ := unpack_eq_true.mp h
  obtain ⟨r1, hstring', hr1⟩ := Unpacker.unpackBytes_agree m'.r1 hstring
  obtain ⟨r2, hvector', hr2⟩ := Unpacker.unpackBytes_agree m'.r2 hvector
  obtain ⟨-, -, rfl⟩ := Unpacker.unpackBytes_eq_true.mp hstring
  refine ⟨⟨r1, r2⟩, unpack_eq_true.mpr ⟨_, hstring', hvector'⟩, ?_⟩
  rw [Agree, ← hr1, ← hr2]
  cases n
  rw [MsgResponse.mk.injEq]

/-- The same for the overload that takes a range. -/
theorem MsgResponse.unpackRange_agree {m n : MsgResponse} {range : List UInt8} {l k : Int32}
    (m' : MsgResponse) (h : m.unpackRange range l = some (true, n, k)) :
    ∃ n', m'.unpackRange range l = some (true, n', k) ∧ (n = n' ↔ Agree m m' (.ofRange range)) := by
  unfold unpackRange Monitor.unpackRange at h
  split at h
  · rename_i r' hcall
    cases h
    obtain ⟨n', hcall', hagree⟩ := unpack_agree m' hcall
    refine ⟨n', ?_, hagree⟩
    rw [unpackRange, Monitor.unpackRange, hcall']
  all_goals cases h

/-- A payload of length zero, or of a negative one, is not read: then the message keeps the payload
    that it had before. -/
theorem MsgRaw.read_agree {m : MsgRaw} {stream : List UInt8} (m' : MsgRaw)
    (h : (m.read stream).ok = true) :
    (m'.read stream).ok = true ∧ (m'.read stream).stream = (m.read stream).stream ∧
      ((m.read stream).msg = (m'.read stream).msg ↔
        0 < (Header.ofBytes (stream.take 8)).l.toInt ∨ m.payload = m'.payload) := by
  have hresize : ∀ (s : List UInt8) (n : Nat), (resize s n).length = n := by
    intro s n
    simp only [resize, List.length_append, List.length_take, List.length_replicate]
    omega
  have h8 : (recv stream 8).1.length = 8 := by
    by_contra h8
    rw [read] at h
    simp only [h8, ne_eq, not_false_eq_true, if_true] at h
    cases h
  rw [read] at h
  rw [read, read]
  simp only [h8, ne_eq, not_true_eq_false, if_false] at h ⊢
  by_cases hl : (Header.ofBytes (recv stream 8).1).l.toInt ≤ 0
  · rw [if_pos hl, if_pos hl]
    have hnot : ¬ 0 < (Header.ofBytes (stream.take 8)).l.toInt := not_lt.mpr hl
    refine ⟨rfl, rfl, ?_⟩
    simp [hnot]
  · rw [if_neg hl] at h
    rw [if_neg hl, if_neg hl]
    have hlen := of_decide_eq_true h
    refine ⟨h, rfl, iff_of_true ?_ (.inl (not_le.mp hl))⟩
    -- the payload is received whole, and nothing of the old one is left
    simp only [hlen, List.drop_eq_nil_of_le (hresize _ _).le]

/-- **Two targets.**  A string, a vector, a response or a raw message that is decoded into one
    target is decoded into any other one, and the values agree exactly if no length was zero where
    the targets differ. -/
theorem decoded_value (r r' : Unpacker) :
    (∀ t t' u, r.unpackString t = .returned true u r' →
      ∃ u', r.unpackString t' = .returned true u' r' ∧ (u = u' ↔ r.lengthField ≠ 0 ∨ t = t')) ∧
    (∀ t t' u, r.unpackVector t = .returned true u r' →
      ∃ u', r.unpackVector t' = .returned true u' r' ∧ (u = u' ↔ r.lengthField ≠ 0 ∨ t = t')) ∧
    (∀ m m' n : MsgResponse, m.unpack r = .returned true n r' →
      ∃ n', m'.unpack r = .returned true n' r' ∧ (n = n' ↔ MsgResponse.Agree m m' r)) ∧
    (∀ (m m' n : MsgResponse) range l k, m.unpackRange range l = some (true, n, k) →
      ∃ n', m'.unpackRange range l = some (true, n', k) ∧
        (n = n' ↔ MsgResponse.Agree m m' (.ofRange range))) ∧
    (∀ (m m' : MsgRaw) stream, (m.read stream).ok = true →
      (m'.read stream).ok = true ∧ (m'.read stream).stream = (m.read stream).stream ∧
        ((m.read stream).msg = (m'.read stream).msg ↔
          0 < (Header.ofBytes (stream.take 8)).l.toInt ∨ m.payload = m'.payload)) :=
  ⟨fun _ t' _ h => Unpacker.unpackBytes_agree t' h,
    fun _ t' _ h => Unpacker.unpackBytes_agree t' h,
    fun _ m' _ h => MsgResponse.unpack_agree m' h,
    fun _ m' _ _ _ _ h => MsgResponse.unpackRange_agree m' h,
    fun _ m' _ h => MsgRaw.read_agree m' h⟩

end

/-- A string of one byte replaces whatever the target holds. -/
theorem decoded_value_replaced :
    (Unpacker.new (packString [7])).unpackString [] = .returned true [7] ⟨packString [7], 6⟩ ∧
      (Unpacker.new (packString [7])).unpackString [1, 2]
        = .returned true [7] ⟨packString [7], 6⟩ := by
  have hfirst : (Unpacker.new (packString [7])).unpackString []
      = .returned true [7] ⟨packString [7], 6⟩ := by decide
  obtain ⟨u, hu, hagree⟩ := (decoded_value (.new (packString [7])) _).1 [] [1, 2] [7] hfirst
  have heq : [7] = u := hagree.mpr (.inl (by decide))
  exact ⟨hfirst, heq ▸ hu⟩

/-- **What was there before.**  An empty string, an empty response and a message without payload are
    decoded with success, and the targets keep what they hold. -/
theorem decoded_value_kept :
    (Unpacker.new (packString [])).unpackString [7] = .returned true [7] ⟨packString [], 4⟩ ∧
      (Unpacker.new (packString [])).unpackString [] = .returned true [] ⟨packString [], 4⟩ ∧
      (MsgResponse.mk [7] [8]).unpack (.new (MsgResponse.mk [] []).pack)
        = .returned true ⟨[7], [8]⟩ ⟨(MsgResponse.mk [] []).pack, 8⟩ ∧
      ((MsgRaw.mk MSGPONG [7]).read (MsgRaw.mk MSGPING []).frame).msg = ⟨MSGPING, [7]⟩ ∧
      ((MsgRaw.mk MSGPONG []).read (MsgRaw.mk MSGPING []).frame).msg = ⟨MSGPING, []⟩ := by
  refine ⟨?_, ?_, ?_, ?_, ?_⟩ <;> decide

/-! ### A call that fails -/

/-- `unpack(unpackable *)`: the object is handed the range from the cursor on, and says how far it
    has come. -/
def Unpacker.unpackObject {α : Type} (r : Unpacker)
    (unpack : List UInt8 → Int32 → Option (Bool × α × Int32)) : Option (Bool × α × Unpacker) :=
  (unpack (r.buf.drop r.data) 0).map fun p =>
    (p.1, p.2.1, if p.1 then { r with data := (r.data + p.2.2.toInt).toNat } else r)

section

variable {r r' : Unpacker} {α : Type}

/-- A field of a fixed size that fails changes nothing. -/
theorem Unpacker.unpackFixed_failed {size : ℕ+} {t t' : List UInt8}
    (h : r.unpackFixed size t = .returned false t' r') : t' = t ∧ r' = r := by
  unfold unpackFixed at h
  split_ifs at h
  · cases h
    exact ⟨rfl, rfl⟩
  · split at h <;> cases h

/-- A string that fails leaves the unpacker alone exactly if there is no length. -/
theorem Unpacker.unpackBytes_failed {extra : Nat} {t t' : List UInt8}
    (h : r.unpackBytes extra t = .returned false t' r') :
    t' = t ∧ r' = r ↔ r.buf.length < r.data + 4 := by
  obtain ⟨rfl, ⟨hshort, rfl⟩ | ⟨hlen, -, -, rfl⟩⟩ := unpackBytes_eq_false.mp h
  · simp [hshort]
  · -- the cursor is behind the length
    simp only [true_and, not_lt.mpr hlen, iff_false]
    exact fun h => absurd (congrArg Unpacker.data h) (by simp)

/-- A request that fails leaves everything alone exactly if its first member is not there. -/
theorem MsgRequest.unpack_failed {m m' : MsgRequest} (h : m.unpack r = (false, m', r')) :
    m' = m ∧ r' = r ↔ r.buf.length < r.data + 4 := by
  obtain ⟨hshort, rfl, rfl⟩ | ⟨hlen, -, rfl, rfl⟩ := unpack_eq_false.mp h
  · simp [hshort]
  · simp only [not_lt.mpr hlen, iff_false, not_and]
    exact fun _ h => absurd (congrArg Unpacker.data h) (by simp)

/-- A heartbeat has one member, so that one that fails changes nothing. -/
theorem MsgHeartbeat.unpack_failed {m m' : MsgHeartbeat} (h : m.unpack r = (false, m', r')) :
    m' = m ∧ r' = r := by
  unfold unpack at h
  split at h
  · cases h
    exact ⟨rfl, rfl⟩
  · cases h

/-- A string that is there moves the cursor even if it leaves the target, so that a failure behind
    it is not without a trace. -/
theorem MsgResponse.unpack_failed {m m' : MsgResponse} (h : m.unpack r = .returned false m' r') :
    m' = m ∧ r' = r ↔ r.buf.length < r.data + 4 := by
  obtain ⟨hstring, hr2⟩ | ⟨r₁, hstring, hvector⟩ := unpack_eq_false.mp h
  · rw [← Unpacker.unpackBytes_failed hstring]
    cases m
    cases m'
    simp_all
  · obtain ⟨hcomplete, -, rfl⟩ := Unpacker.unpackBytes_eq_true.mp hstring
    simp only [not_lt.mpr hcomplete.1, iff_false, not_and]
    intro _ hr
    obtain ⟨-, ⟨-, hr'⟩ | ⟨-, -, -, hr'⟩⟩ := Unpacker.unpackBytes_eq_false.mp hvector
    · have hdata := congrArg Unpacker.data (hr'.symm.trans hr)
      simp only [Unpacker.past] at hdata
      omega
    · have hdata := congrArg Unpacker.data (hr'.symm.trans hr)
      simp only [Unpacker.past] at hdata
      omega

/-- An object that fails has not told how far it has come. -/
theorem Unpacker.unpackObject_failed {call : Unpacker → Unpacked α} {m' : α}
    (h : r.unpackObject (unpackRange call) = some (false, m', r')) :
    r' = r ∧ ∃ r₁, call (.ofRange (r.buf.drop r.data)) = .returned false m' r₁ := by
  obtain ⟨p, hp, heq⟩ := Option.map_eq_some_iff.mp h
  unfold unpackRange at hp
  split at hp <;> cases hp <;> cases heq
  exact ⟨rfl, _, ‹_›⟩

/-- The same for a request in a range; its first member may have been the same before. -/
theorem MsgRequest.unpackObject_failed {m m' : MsgRequest}
    (h : r.unpackObject m.unpackRange = some (false, m', r')) :
    m' = m ∧ r' = r ↔ (Unpacker.ofRange (r.buf.drop r.data)).buf.length < 4 ∨
      (Unpacker.ofRange (r.buf.drop r.data)).lengthField = m.op := by
  obtain ⟨rfl, r₁, hcall⟩ := Unpacker.unpackObject_failed h
  rw [Unpacked.returned.injEq] at hcall
  obtain ⟨hshort, hm, -⟩ | ⟨hlen, -, hm, -⟩ :=
    unpack_eq_false.mp (Prod.ext hcall.1 (Prod.ext hcall.2.1 rfl))
  · exact iff_of_true ⟨hm, rfl⟩ (.inl (by simpa [Unpacker.ofRange, Unpacker.new] using hshort))
  · have hlen : 4 ≤ (Unpacker.ofRange (r'.buf.drop r'.data)).buf.length := by
      simpa [Unpacker.ofRange, Unpacker.new] using hlen
    rw [hm]
    cases m
    simp [not_lt.mpr hlen]

/-- And for a heartbeat in a range. -/
theorem MsgHeartbeat.unpackObject_failed {m m' : MsgHeartbeat}
    (h : r.unpackObject m.unpackRange = some (false, m', r')) : m' = m ∧ r' = r := by
  obtain ⟨rfl, r₁, hcall⟩ := Unpacker.unpackObject_failed h
  rw [Unpacked.returned.injEq] at hcall
  exact ⟨(unpack_failed (Prod.ext hcall.1 (Prod.ext hcall.2.1 rfl))).1, rfl⟩

/-- And for a response in a range, whose first member may be replaced. -/
theorem MsgResponse.unpackObject_failed {m m' : MsgResponse}
    (h : r.unpackObject m.unpackRange = some (false, m', r')) :
    m' = m ∧ r' = r ↔ ((Unpacker.ofRange (r.buf.drop r.data)).Complete 1 →
      (Unpacker.ofRange (r.buf.drop r.data)).lengthField = 0 ∨
        (Unpacker.ofRange (r.buf.drop r.data)).contents = m.r1) := by
  obtain ⟨rfl, r₁, hcall⟩ := Unpacker.unpackObject_failed h
  generalize Unpacker.ofRange (r'.buf.drop r'.data) = q at hcall
  obtain ⟨hstring, hr2⟩ | ⟨r₂, hstring, hvector⟩ := unpack_eq_false.mp hcall
  -- the string is not complete, so that nothing was written
  · have hm : m' = m := by
      obtain ⟨hr1, -⟩ := Unpacker.unpackBytes_eq_false.mp hstring
      cases m
      cases m'
      simp_all
    refine iff_of_true ⟨hm, rfl⟩ fun hcomplete => ?_
    cases hstring.symm.trans (Unpacker.unpackBytes_eq_true.mpr ⟨hcomplete, rfl, rfl⟩)
  -- the string was written, and the vector is not complete
  · obtain ⟨hcomplete, hr1, -⟩ := Unpacker.unpackBytes_eq_true.mp hstring
    obtain ⟨hr2, -⟩ := Unpacker.unpackBytes_eq_false.mp hvector
    have hm : m' = m ↔ m'.r1 = m.r1 := by
      cases m
      cases m'
      simp_all
    rw [and_iff_left rfl, hm, hr1]
    simp only [hcomplete, true_imp_iff]
    by_cases hzero : q.lengthField = 0
    · simp [hzero]
    · simp [hzero]

end

/-- What `Reader::read` has done to `msgreq` when it finds that a request is not a whole one. -/
theorem Listener.msgreq_of_unpackError {s s' : Listener} {stream : List UInt8} {now : UInt64}
    {deferred : Bool} (h : s.step (.loop (.read stream now)) = some s')
    (hloop : s'.loop = .unpackError deferred)
    (htype : (MsgRaw.fresh.read stream).msg.type = MSGREQUEST) :
    s'.r.msgreq = s.r.msgreq ↔ (MsgRaw.fresh.read stream).msg.payload.length < 4 ∨
      (Unpacker.new (MsgRaw.fresh.read stream).msg.payload).lengthField = s.r.msgreq.op := by
  simp only [step, stepLoop] at h
  split at h
  · split at h
    · split_ifs at h with hok
      · cases h
        -- the message is a request, and its decoding has failed
        generalize (MsgRaw.fresh.read stream).msg = raw at hloop htype ⊢
        simp only [handle, htype, if_true] at hloop ⊢
        split at hloop
        · cases hloop
        · rename_i m r₁ hunpack
          dsimp only
          obtain ⟨hshort, rfl, -⟩ | ⟨hlen, -, rfl, -⟩ := MsgRequest.unpack_eq_false.mp hunpack
          -- not even the operation was read
          · exact iff_of_true rfl (.inl (by simpa [Unpacker.new] using hshort))
          -- the operation was written, and the rest is not complete
          · have hlen : 4 ≤ raw.payload.length := by simpa [Unpacker.new] using hlen
            cases s.r.msgreq
            simp [not_lt.mpr hlen]
      · cases h
        cases hloop
    · cases h
      cases hloop
  · cases h

/-- **A call that fails.**  A scalar and a heartbeat leave the unpacker and the target as they were.
    Any other call does so exactly if the first four bytes are missing already; an object that is
    unpacked leaves the unpacker, but itself only if its first member has kept its value.  In the
    listener the object is the `msgreq` that tasks are about to read. -/
theorem failed_decoding (r r' : Unpacker) :
    (∀ size t t', r.unpackFixed size t = .returned false t' r' → t' = t ∧ r' = r) ∧
    (∀ t t', r.unpackString t = .returned false t' r' →
      (t' = t ∧ r' = r ↔ r.buf.length < r.data + 4)) ∧
    (∀ t t', r.unpackVector t = .returned false t' r' →
      (t' = t ∧ r' = r ↔ r.buf.length < r.data + 4)) ∧
    (∀ m m' : MsgRequest, m.unpack r = (false, m', r') →
      (m' = m ∧ r' = r ↔ r.buf.length < r.data + 4)) ∧
    (∀ m m' : MsgResponse, m.unpack r = .returned false m' r' →
      (m' = m ∧ r' = r ↔ r.buf.length < r.data + 4)) ∧
    (∀ m m' : MsgHeartbeat, m.unpack r = (false, m', r') → m' = m ∧ r' = r) ∧
    (∀ m m' : MsgRequest, r.unpackObject m.unpackRange = some (false, m', r') →
      (m' = m ∧ r' = r ↔ (Unpacker.ofRange (r.buf.drop r.data)).buf.length < 4 ∨
        (Unpacker.ofRange (r.buf.drop r.data)).lengthField = m.op)) ∧
    (∀ m m' : MsgResponse, r.unpackObject m.unpackRange = some (false, m', r') →
      (m' = m ∧ r' = r ↔ ((Unpacker.ofRange (r.buf.drop r.data)).Complete 1 →
        (Unpacker.ofRange (r.buf.drop r.data)).lengthField = 0 ∨
          (Unpacker.ofRange (r.buf.drop r.data)).contents = m.r1))) ∧
    (∀ m m' : MsgHeartbeat, r.unpackObject m.unpackRange = some (false, m', r') →
      m' = m ∧ r' = r) ∧
    (∀ (s s' : Listener) stream now deferred, s.step (.loop (.read stream now)) = some s' →
      s'.loop = .unpackError deferred → (MsgRaw.fresh.read stream).msg.type = MSGREQUEST →
      (s'.r.msgreq = s.r.msgreq ↔ (MsgRaw.fresh.read stream).msg.payload.length < 4 ∨
        (Unpacker.new (MsgRaw.fresh.read stream).msg.payload).lengthField = s.r.msgreq.op)) :=
  ⟨fun _ _ _ => Unpacker.unpackFixed_failed, fun _ _ => Unpacker.unpackBytes_failed,
    fun _ _ => Unpacker.unpackBytes_failed, fun _ _ => MsgRequest.unpack_failed,
    fun _ _ => MsgResponse.unpack_failed, fun _ _ => MsgHeartbeat.unpack_failed,
    fun _ _ => MsgRequest.unpackObject_failed, fun _ _ => MsgResponse.unpackObject_failed,
    fun _ _ => MsgHeartbeat.unpackObject_failed,
    fun _ _ _ _ _ => Listener.msgreq_of_unpackError⟩

/-- Three bytes are not enough for the first member of a request. -/
theorem failed_decoding_short :
    ∃ m' r', (MsgRequest.mk 1 2).unpack (.new [7, 0, 0]) = (false, m', r') ∧
    m' = ⟨1, 2⟩ ∧ r' = .new [7, 0, 0] := by
  have h : (MsgRequest.mk 1 2).unpack (.new [7, 0, 0]) = (false, ⟨1, 2⟩, .new [7, 0, 0]) := by
    decide
  exact ⟨_, _, h, ((failed_decoding (.new [7, 0, 0]) _).2.2.2.1 _ _ h).mpr (by decide)⟩

/-- A request is read, and before the worker has read its input a request that ends behind its first
    member. -/
def requestCutOff : List Listener.Act :=
  Listener.acceptPeer 5 ++ Listener.readRequest 1 2 ++
    Listener.readPeer (MsgRaw.mk MSGREQUEST (int32 7)).frame ++ Listener.workOnce

/-- **What a failed call has changed.**  A string whose bytes are missing leaves the cursor behind
    its length.  A request whose second member is missing leaves the first one replaced, and in the
    listener the task of another request is executed with it. -/
theorem failed_decoding_half :
    (Unpacker.new (int32 5)).unpackString [] = .returned false [] ⟨int32 5, 4⟩ ∧
      (MsgRequest.mk 1 2).unpack (.new (int32 7)) = (false, ⟨7, 2⟩, ⟨int32 7, 4⟩) ∧
      ∃ s, exec Listener.step .init requestCutOff = some s ∧
        ∃ p ∈ s.works, p.1.args = ⟨1, 2⟩ ∧ p.2 = ⟨7, 2⟩ := by
  refine ⟨by decide, by decide, ?_⟩
  obtain ⟨s, hs, hp⟩ := exists_of_exec_any (s := Listener.init)
    (p := fun s => s.works.any fun p => decide (p.1.args = ⟨1, 2⟩ ∧ p.2 = ⟨7, 2⟩))
    (show (exec Listener.step _ requestCutOff).any _ = true by decide +kernel)
  obtain ⟨p, hmem, hp⟩ := List.any_eq_true.mp hp
  exact ⟨s, hs, p, hmem, of_decide_eq_true hp⟩

end CPlayground.Monitor
