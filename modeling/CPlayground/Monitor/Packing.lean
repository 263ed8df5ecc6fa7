import CPlayground.Lib.Trace
import CPlayground.Monitor.Message
import Mathlib.Data.PNat.Basic

namespace CPlayground.Monitor

open CPlayground.Bytes CPlayground.Trace

/-!
# Packing: strings, vectors and field lists

The overloads of `Unpacker::unpack` for `std::string` and `std::vector<char>`, lists of fields, and
the message overloads `unpack(data, end, l)`.

A length on the wire is a signed `int`.  What the C++ leaves undefined when it is a bad one is an
outcome of its own: a range of negative length, a read outside the buffer, an overflow of `l + 1`.

* `unpacker_safe` — as long as no length field is negative, every call returns, and its cursor moves
  forward inside the buffer.
* `packing_roundtrip` — what `Packer` packs `Unpacker` unpacks, unless a string has `2 ^ 31 - 1`
  bytes or the size of the buffer does not fit in an `int`.
-/

/-! ### `Unpacker::unpack` -/

/-- How a call of `unpack` with a target of type `α` ends. -/
inductive Unpacked (α : Type) where
  /-- It returns `ok`; `t` is the target and `r` the unpacker it leaves. -/
  | returned (ok : Bool) (t : α) (r : Unpacker)
  /-- A string or a vector is constructed from the range `[data_, data_ + l)` with `l` negative. -/
  | negativeLength (l : Int32)
  /-- A byte outside the buffer is read. -/
  | outOfBounds
  /-- `l + 1` is not an `int`. -/
  | overflow
  deriving DecidableEq

namespace Unpacked

variable {α β : Type}

/-- `x && next`: the second call is made when the first returns true. -/
def andThen (x : Unpacked α) (failed : α → β) (next : α → Unpacker → Unpacked β) : Unpacked β :=
  match x with
  | .returned true t r  => next t r
  | .returned false t r => .returned false (failed t) r
  | .negativeLength l   => .negativeLength l
  | .outOfBounds        => .outOfBounds
  | .overflow           => .overflow

/-- The call as one on a larger object of which the target is a member. -/
def map (f : α → β) (x : Unpacked α) : Unpacked β :=
  x.andThen f fun t r => .returned true (f t) r

end Unpacked

/-- The types `Unpacker` and `Packer` handle; `sizeof` is at least one. -/
inductive FieldType where
  | scalar (size : ℕ+)
  | string
  | vector
  deriving DecidableEq

/-- A default-constructed target. -/
def FieldType.default : FieldType → List UInt8
  | .scalar size      => List.replicate size 0
  | .string | .vector => []

namespace Unpacker

/-- The `n` bytes at the cursor, if they are all in the buffer. -/
def bytes (r : Unpacker) (n : Nat) : Option (List UInt8) :=
  if r.data + n ≤ r.buf.length then some ((r.buf.drop r.data).take n) else none

/-- The common part of the overloads for `std::string` and `std::vector<char>`: `extra` bytes follow
    the contents. -/
def unpackBytes (extra : Nat) (r : Unpacker) (t : List UInt8) : Unpacked (List UInt8) :=
  match r.unpackInt with
  | none => .returned false t r
  | some (l, r) =>
    -- the target keeps what it holds
    if l = 0 then .returned true t r
    else if (r.data : Int) + l.toInt + extra > r.buf.length then .returned false t r
    else if l.toInt < 0 then .negativeLength l
    else
      match r.bytes l.toInt.toNat with
      | none => .outOfBounds
      | some s =>
        -- the cursor is moved by an `int`
        if 2 ^ 31 ≤ l.toInt + extra then .overflow
        else .returned true s { r with data := r.data + (l.toInt + extra).toNat }

/-- `unpack(std::string &)`. -/
def unpackString (r : Unpacker) (t : List UInt8) : Unpacked (List UInt8) := unpackBytes 1 r t

/-- `unpack(std::vector<char> &)`. -/
def unpackVector (r : Unpacker) (t : List UInt8) : Unpacked (List UInt8) := unpackBytes 0 r t

/-- `unpack(T &)`. -/
def unpackFixed (size : ℕ+) (r : Unpacker) (t : List UInt8) : Unpacked (List UInt8) :=
  if r.data + size > r.buf.length then .returned false t r
  else
    match r.bytes size with
    | none => .outOfBounds
    | some s => .returned true s { r with data := r.data + size }

/-- `unpack`, by the type of the target `t`. -/
def unpack (r : Unpacker) (ty : FieldType) (t : List UInt8) : Unpacked (List UInt8) :=
  match ty with
  | .scalar size => r.unpackFixed size t
  | .string => r.unpackString t
  | .vector => r.unpackVector t

/-! ### What a call does -/

variable {r : Unpacker}

/-- Bytes at the cursor are inside the buffer. -/
theorem bytes_of_drop {b rest : List UInt8} (hb : b ≠ []) (h : r.buf.drop r.data = b ++ rest) :
    r.bytes b.length = some b := by
  have hlen : r.buf.length - r.data = b.length + rest.length := by
    rw [← List.length_drop, h, List.length_append]
  have hpos : 0 < b.length := List.length_pos_iff.mpr hb
  rw [bytes, if_pos (by omega), h, List.take_left]

/-- A length is read back in front of anything. -/
theorem unpackInt_of_drop {x : Int32} {rest : List UInt8}
    (h : r.buf.drop r.data = int32 x ++ rest) :
    r.unpackInt = some (x, { r with data := r.data + 4 }) := by
  have hlen : r.buf.length - r.data = 4 + rest.length := by
    rw [← List.length_drop, h, List.length_append, length_int32]
  have htake : (r.buf.drop r.data).take 4 = int32 x := by
    rw [h, List.take_left' (length_int32 x)]
  rw [unpackInt, unpackScalar, if_neg (by omega), Option.map_some, htake, ofInt32_int32]

/-- The four bytes at the cursor, read as a length. -/
def lengthField (r : Unpacker) : Int32 := ofInt32 ((r.buf.drop r.data).take 4)

/-- Reading a length needs four bytes. -/
theorem unpackInt_eq (r : Unpacker) :
    r.unpackInt = if r.data + 4 ≤ r.buf.length
      then some (r.lengthField, { r with data := r.data + 4 }) else none := by
  rw [unpackInt, unpackScalar, lengthField]
  by_cases h : r.data + 4 ≤ r.buf.length
  · rw [if_pos h, if_neg (by omega)]
    rfl
  · rw [if_neg h, if_pos (by omega)]
    rfl

/-- The length field at the cursor, if there is one, is not negative, and moving the cursor past the
    contents does not overflow. -/
def Bounded (extra : Nat) (r : Unpacker) : Prop :=
  r.data + 4 ≤ r.buf.length → 0 ≤ r.lengthField.toInt ∧
    (2 ^ 31 ≤ r.lengthField.toInt + extra →
      (r.buf.length : Int) < r.data + 4 + r.lengthField.toInt + extra)

/-- The call returns; it stays in the buffer, and moves the cursor forward if it succeeds. -/
def Safe (r : Unpacker) (x : Unpacked (List UInt8)) : Prop :=
  ∃ ok t r', x = .returned ok t r' ∧ r'.buf = r.buf ∧ r.data ≤ r'.data ∧
    r'.data ≤ r.buf.length ∧ (ok = true → r.data < r'.data)

/-- A call that returns is safe if it leaves the cursor in the buffer, further on if it succeeds. -/
theorem safe_returned {ok : Bool} {t : List UInt8} {data : Nat} (hle : r.data ≤ data)
    (hin : data ≤ r.buf.length) (hok : ok = true → r.data < data) :
    Safe r (.returned ok t { r with data := data }) :=
  ⟨ok, t, _, rfl, rfl, hle, hin, hok⟩

/-- A field of a fixed size never leaves the buffer. -/
theorem safe_unpackFixed (size : ℕ+) (t : List UInt8) (hin : r.data ≤ r.buf.length) :
    Safe r (r.unpackFixed size t) := by
  have hpos := size.pos
  rw [unpackFixed]
  by_cases h : r.data + size > r.buf.length
  · rw [if_pos h]
    exact safe_returned (le_refl _) hin nofun
  · have hle : r.data + size ≤ r.buf.length := not_lt.mp h
    rw [if_neg h, bytes, if_pos hle]
    exact safe_returned (Nat.le_add_right _ _) hle fun _ => by omega

/-- **One call for a string or a vector.**  It is safe if its length field is a good one, and has no
    defined behaviour if it is not. -/
theorem unpackBytes_cases {extra : Nat} (hextra : extra ≤ 1) (t : List UInt8)
    (hin : r.data ≤ r.buf.length) :
    (Bounded extra r ∧ Safe r (r.unpackBytes extra t)) ∨
      (¬ Bounded extra r ∧ (r.unpackBytes extra t = .negativeLength r.lengthField ∨
        r.unpackBytes extra t = .overflow)) := by
  rw [unpackBytes, unpackInt_eq, Bounded]
  by_cases h4 : r.data + 4 ≤ r.buf.length
  swap
  · rw [if_neg h4]
    exact .inl ⟨fun h => absurd h h4, safe_returned (le_refl _) hin nofun⟩
  simp only [h4, if_true, true_imp_iff]
  by_cases hzero : r.lengthField = 0
  · rw [if_pos hzero, hzero, Int32.toInt_zero]
    refine .inl ⟨⟨le_refl _, fun h => by omega⟩, ?_⟩
    exact safe_returned (Nat.le_add_right _ _) h4 fun _ => by omega
  have hne : r.lengthField.toInt ≠ 0 := fun h => hzero (Int32.toInt_inj.mp h)
  rw [if_neg hzero, Nat.cast_add, Nat.cast_ofNat]
  by_cases hlong : (r.data : Int) + 4 + r.lengthField.toInt + extra > r.buf.length
  · -- a negative length never takes this branch, for the cursor is inside the buffer
    rw [if_pos hlong]
    exact .inl ⟨⟨by omega, fun _ => hlong⟩, safe_returned (Nat.le_add_right _ _) h4 nofun⟩
  rw [if_neg hlong]
  by_cases hneg : r.lengthField.toInt < 0
  · rw [if_pos hneg]
    exact .inr ⟨fun h => absurd h.1 (not_le.mpr hneg), .inl rfl⟩
  have hread : r.data + 4 + r.lengthField.toInt.toNat ≤ r.buf.length := by omega
  rw [if_neg hneg, bytes, if_pos hread]
  by_cases hover : 2 ^ 31 ≤ r.lengthField.toInt + extra
  · simp only [if_pos hover]
    exact .inr ⟨fun h => absurd (h.2 hover) (by omega), .inr trivial⟩
  · simp only [if_neg hover]
    refine .inl ⟨⟨by omega, fun h => absurd h hover⟩, ?_⟩
    exact safe_returned (by omega) (by omega) fun _ => by omega

/-- A string or a vector is unpacked safely exactly if its length is neither negative nor too large
    to add one to it. -/
theorem safe_unpackBytes_iff {extra : Nat} (hextra : extra ≤ 1) (t : List UInt8)
    (hin : r.data ≤ r.buf.length) : Safe r (r.unpackBytes extra t) ↔ Bounded extra r := by
  rcases unpackBytes_cases hextra t hin with ⟨hb, hsafe⟩ | ⟨hb, hbad⟩
  · exact iff_of_true hsafe hb
  · refine iff_of_false ?_ hb
    rintro ⟨ok, u, r', h, -⟩
    rcases hbad with hbad | hbad
    · cases hbad.symm.trans h
    · cases hbad.symm.trans h

/-- A call that returns leaves the cursor in the buffer. -/
theorem data_le_of_unpackBytes {extra : Nat} {ok : Bool} {t u : List UInt8} {r' : Unpacker}
    (hextra : extra ≤ 1) (hin : r.data ≤ r.buf.length)
    (h : r.unpackBytes extra t = .returned ok u r') :
    r'.buf = r.buf ∧ r'.data ≤ r.buf.length := by
  rcases unpackBytes_cases hextra t hin with ⟨-, ok', u', r'', h', hbuf, -, hdata, -⟩ | ⟨-, hbad⟩
  · cases h.symm.trans h'
    exact ⟨hbuf, hdata⟩
  · rcases hbad with hbad | hbad
    · cases hbad.symm.trans h
    · cases hbad.symm.trans h

/-! ### Sequences of calls -/

/-- A call of `unpack`: the type of its target and what the target holds. -/
structure Call where
  type : FieldType
  target : List UInt8

/-- The unpacker after a call that returns. -/
def step (r : Unpacker) (c : Call) : Option Unpacker :=
  match r.unpack c.type c.target with
  | .returned _ _ r => some r
  | .negativeLength _ | .outOfBounds | .overflow => none

/-- The length field the call finds at the cursor is a good one. -/
def Sound (r : Unpacker) (c : Call) : Prop :=
  match c.type with
  | .scalar _ => True
  | .string => Bounded 1 r
  | .vector => Bounded 0 r

/-- **A call is safe exactly if its length field is sound**, whatever type it is for. -/
theorem safe_iff_sound (c : Call) (hin : r.data ≤ r.buf.length) :
    Safe r (r.unpack c.type c.target) ↔ Sound r c := by
  obtain ⟨ty, t⟩ := c
  cases ty with
  | scalar size => exact iff_of_true (safe_unpackFixed size t hin) trivial
  | string => exact safe_unpackBytes_iff (le_refl _) t hin
  | vector => exact safe_unpackBytes_iff (Nat.zero_le _) t hin

/-- A safe call leaves the cursor in the same buffer. -/
theorem step_of_sound {r' : Unpacker} {c : Call} (hin : r.data ≤ r.buf.length) (hc : Sound r c)
    (h : r.step c = some r') : r'.buf = r.buf ∧ r'.data ≤ r'.buf.length := by
  obtain ⟨ok, t, u, hu, hbuf, -, hdata, -⟩ := (safe_iff_sound c hin).mpr hc
  rw [step, hu] at h
  cases h
  exact ⟨hbuf, hbuf ▸ hdata⟩

/-- **Unpacker safety.**  However a buffer is unpacked, as long as every call has found a length
    field that is not negative (and, for a string, is not `2 ^ 31 - 1` with as many bytes left), the
    next call returns, reads only inside the buffer and leaves the cursor in it, further on if it
    succeeds, exactly when its own length field is such a one. -/
theorem unpacker_safe (buf : List UInt8) (calls : List Call) (r : Unpacker)
    (h : exec step (new buf) calls = some r) (hsound : Along step Sound (new buf) calls)
    (c : Call) :
    r.buf = buf ∧ r.data ≤ buf.length ∧ (Safe r (r.unpack c.type c.target) ↔ Sound r c) := by
  have hinv : r.buf = buf ∧ r.data ≤ r.buf.length := by
    refine exec_invariant_along (P := fun r => r.buf = buf ∧ r.data ≤ r.buf.length) ?_
      ⟨rfl, Nat.zero_le _⟩ hsound h
    rintro r c r' ⟨hbuf, hin⟩ hc hst
    obtain ⟨hbuf', hin'⟩ := step_of_sound hin hc hst
    exact ⟨hbuf'.trans hbuf, hin'⟩
  exact ⟨hinv.1, hinv.1 ▸ hinv.2, safe_iff_sound c hinv.2⟩

instance (extra : Nat) (r : Unpacker) : Decidable (Bounded extra r) :=
  inferInstanceAs (Decidable (_ → _ ∧ (_ → _)))

instance decidableSound (r : Unpacker) : (c : Call) → Decidable (Sound r c)
  | ⟨.scalar _, _⟩ => .isTrue trivial
  | ⟨.string, _⟩ => inferInstanceAs (Decidable (Bounded 1 r))
  | ⟨.vector, _⟩ => inferInstanceAs (Decidable (Bounded 0 r))

/-- A string and then a vector, from a buffer that ends inside the vector. -/
theorem unpacker_safe_string_vector :
    ∃ r, exec step (new (packString [7] ++ int32 3 ++ [1, 2])) [⟨.string, []⟩] = some r ∧
      r.data = 6 ∧ Safe r (r.unpack .vector []) := by
  obtain ⟨r, hr, hp⟩ := exists_of_exec_any
    (p := fun r => r.data == 6 && decide (Sound r ⟨.vector, []⟩))
    (show (exec step (new (packString [7] ++ int32 3 ++ [1, 2])) [⟨.string, []⟩]).any _ = true by
      decide)
  rw [Bool.and_eq_true, beq_iff_eq, decide_eq_true_eq] at hp
  have hsafe := unpacker_safe _ _ r hr (by decide) ⟨.vector, []⟩
  exact ⟨r, hr, hp.1, hsafe.2.2.mpr hp.2⟩

/-- **A negative length.**  Four bytes `0xff` are the length `-1`: neither overload tests for it,
    and both construct their result from the range `[data_, data_ - 1)`. -/
theorem negative_length_requested :
    (new [255, 255, 255, 255]).unpack .string [] = .negativeLength (-1) ∧
      (new [255, 255, 255, 255]).unpack .vector [] = .negativeLength (-1) ∧
      ¬ Safe (new [255, 255, 255, 255]) ((new [255, 255, 255, 255]).unpack .string []) := by
  have hstring : (new [255, 255, 255, 255]).unpack .string [] = .negativeLength (-1) := by decide
  refine ⟨hstring, by decide, ?_⟩
  rintro ⟨ok, t, r', h, -⟩
  rw [hstring] at h
  cases h

/-! ### Unpacking what was packed -/

/-- An empty string leaves its target as it was. -/
theorem unpackBytes_empty {extra : Nat} {t rest : List UInt8}
    (h : r.buf.drop r.data = int32 0 ++ rest) :
    r.unpackBytes extra t = .returned true t { r with data := r.data + 4 } := by
  simp only [unpackBytes, unpackInt_of_drop h, if_true]

/-- A length, that many bytes and `extra` more: the contents, unless moving past them overflows. -/
theorem unpackBytes_of_drop {extra : Nat} {t u tail rest : List UInt8} (ht : t ≠ [])
    (hlen : t.length < 2 ^ 31) (htail : tail.length = extra)
    (h : r.buf.drop r.data = int32 (Int32.ofNat t.length) ++ (t ++ (tail ++ rest))) :
    r.unpackBytes extra u = if 2 ^ 31 ≤ t.length + extra then .overflow
      else .returned true t { r with data := r.data + (4 + t.length + extra) } := by
  -- the length is not 0 and not negative, and the bytes are in the buffer
  have hl : (Int32.ofNat t.length).toInt = t.length := MsgRaw.toInt_ofNat_of_lt hlen
  have hpos : 0 < t.length := List.length_pos_iff.mpr ht
  have hne : Int32.ofNat t.length ≠ 0 := by
    intro h0
    rw [h0, Int32.toInt_zero] at hl
    omega
  have hbuf : r.buf.length - r.data = 4 + (t.length + (tail.length + rest.length)) := by
    rw [← List.length_drop, h]
    simp
  have hdrop : r.buf.drop (r.data + 4) = t ++ (tail ++ rest) := by
    rw [← List.drop_drop, h, List.drop_left' (length_int32 _)]
  have hbytes : bytes { r with data := r.data + 4 } t.length = some t := bytes_of_drop ht hdrop
  have hlong : ¬ ((r.data + 4 : Nat) : Int) + t.length + extra > r.buf.length := by omega
  have hnneg : ¬ (t.length : Int) < 0 := by omega
  simp only [unpackBytes, unpackInt_of_drop h, if_neg hne, hl, if_neg hlong, if_neg hnneg,
    Int.toNat_natCast, hbytes]
  -- only the sum of the length and the terminator can overflow
  by_cases hover : 2 ^ 31 ≤ t.length + extra
  · rw [if_pos hover, if_pos (by omega)]
  · have hdata : r.data + 4 + ((t.length : Int) + extra).toNat
        = r.data + (4 + t.length + extra) := by omega
    rw [if_neg hover, if_neg (by omega), hdata]

/-- A field of a fixed size is read back. -/
theorem unpackFixed_of_drop {image u rest : List UInt8} {size : ℕ+} (hsize : image.length = size)
    (h : r.buf.drop r.data = image ++ rest) :
    r.unpackFixed size u = .returned true image { r with data := r.data + image.length } := by
  have hpos : 0 < image.length := hsize ▸ size.pos
  have hlen : r.buf.length - r.data = image.length + rest.length := by
    rw [← List.length_drop, h, List.length_append]
  have hbytes : r.bytes image.length = some image :=
    bytes_of_drop (List.length_pos_iff.mp hpos) h
  rw [unpackFixed, ← hsize, if_neg (by omega), hbytes]

end Unpacker

/-- A value to be packed: the memory image of a scalar, a string or a vector. -/
inductive Field where
  | scalar (image : List UInt8) (hne : image ≠ [])
  | string (t : List UInt8)
  | vector (t : List UInt8)

namespace Field

/-- The type of the target the field is unpacked into. -/
def type : Field → FieldType
  | .scalar image hne => .scalar ⟨image.length, List.length_pos_iff.mpr hne⟩
  | .string _ => .string
  | .vector _ => .vector

/-- The bytes of the value. -/
def value : Field → List UInt8
  | .scalar t _ | .string t | .vector t => t

/-- `Packer::pack`. -/
def pack : Field → List UInt8
  | .scalar image _ => image
  | .string t => packString t
  | .vector t => packVector t

/-- The length of a string or a vector is an `int`. -/
def Fits : Field → Prop
  | .scalar .. => True
  | .string t | .vector t => t.length < 2 ^ 31

/-- A string whose length and terminator together are not counted by an `int`. -/
def Oversized : Field → Prop
  | .string t => 2 ^ 31 ≤ t.length + 1
  | .scalar .. | .vector _ => False

end Field

/-- `payload()` of a `Packer` that has packed the fields in order. -/
def packAll (fields : List Field) : List UInt8 := fields.flatMap Field.pack

/-- Calls of `unpack` into default-constructed targets, while they return true: what the targets
    hold afterwards, and the unpacker. -/
def unpackAll : List FieldType → Unpacker → Option (List (List UInt8) × Unpacker)
  | [], r => some ([], r)
  | ty :: tys, r =>
    match r.unpack ty ty.default with
    | .returned true v r => (unpackAll tys r).map fun p => (v :: p.1, p.2)
    | _ => none

/-- One field at the cursor: it is read back and the cursor is behind it, unless its length and the
    terminator overflow an `int`. -/
theorem unpack_field {r : Unpacker} {f : Field} {rest : List UInt8} (hfit : f.Fits)
    (h : r.buf.drop r.data = f.pack ++ rest) :
    (f.Oversized → r.unpack f.type f.type.default = .overflow) ∧
      (¬ f.Oversized → r.unpack f.type f.type.default
        = .returned true f.value { r with data := r.data + f.pack.length }) := by
  cases f with
  | scalar image hne =>
    exact ⟨False.elim, fun _ => Unpacker.unpackFixed_of_drop rfl h⟩
  | string t =>
    by_cases ht : t = []
    -- an empty string is its length alone
    · subst ht
      exact ⟨fun ho => absurd (show 2 ^ 31 ≤ 0 + 1 from ho) (by omega),
        fun _ => Unpacker.unpackBytes_empty h⟩
    -- the length, the bytes, and the terminator, which is what can overflow
    · have hpack : Field.pack (.string t) = int32 (Int32.ofNat t.length) ++ t ++ [0] := by
        rw [Field.pack, packString, if_neg (by simpa using ht)]
      have hlen : (Field.pack (.string t)).length = 4 + t.length + 1 := by
        rw [hpack]
        simp [Nat.add_assoc]
      rw [hpack, List.append_assoc, List.append_assoc] at h
      have hcall : r.unpack .string [] = _ :=
        Unpacker.unpackBytes_of_drop (u := []) ht hfit (rfl : [0].length = 1) h
      refine ⟨fun ho => hcall.trans (if_pos ho), fun ho => ?_⟩
      rw [hlen]
      exact hcall.trans (if_neg ho)
  | vector t =>
    refine ⟨False.elim, fun _ => ?_⟩
    by_cases ht : t = []
    · subst ht
      exact Unpacker.unpackBytes_empty h
    -- a vector has no terminator
    · have hpack : Field.pack (.vector t) = int32 (Int32.ofNat t.length) ++ t := by
        rw [Field.pack, packVector, if_neg (by simpa using ht)]
      have hlen : (Field.pack (.vector t)).length = 4 + t.length + 0 := by
        rw [hpack]
        simp
      rw [hpack, List.append_assoc] at h
      have hcall : r.unpack .vector [] = _ :=
        Unpacker.unpackBytes_of_drop (u := []) ht hfit (rfl : ([] : List UInt8).length = 0) h
      rw [hlen]
      exact hcall.trans (if_neg (not_le.mpr hfit))

/-- The fields at the cursor are recovered, and the cursor stands behind them, exactly when none of
    the strings is oversized. -/
theorem unpackAll_packAll (fields : List Field) (hfit : ∀ f ∈ fields, f.Fits) {r : Unpacker}
    {rest : List UInt8} (h : r.buf.drop r.data = packAll fields ++ rest) :
    unpackAll (fields.map Field.type) r
        = some (fields.map Field.value, { r with data := r.data + (packAll fields).length }) ↔
      ∀ f ∈ fields, ¬ f.Oversized := by
  -- by induction on the fields, of which the cursor has passed those in front
  induction fields generalizing r with
  | nil => simp [unpackAll, packAll]
  | cons f fields ih =>
    have hpack : packAll (f :: fields) = f.pack ++ packAll fields := List.flatMap_cons
    rw [hpack, List.append_assoc] at h
    obtain ⟨hover, hok⟩ := unpack_field (hfit f List.mem_cons_self) h
    rw [List.forall_mem_cons, List.map_cons, List.map_cons, unpackAll]
    -- the first field decides, if it is too large
    by_cases hf : f.Oversized
    · rw [hover hf]
      exact iff_of_false nofun fun hall => hall.1 hf
    · have hdrop : r.buf.drop (r.data + f.pack.length) = packAll fields ++ rest := by
        rw [← List.drop_drop, h, List.drop_left]
      have hrest := ih (fun g hg => hfit g (List.mem_cons_of_mem _ hg))
        (r := { r with data := r.data + f.pack.length }) hdrop
      rw [hok hf, hpack, List.length_append, ← Nat.add_assoc]
      simp only [hf, not_false_eq_true, true_and, ← hrest, Option.map_eq_some_iff, Prod.mk.injEq,
        List.cons.injEq]
      constructor
      · rintro ⟨p, hp, hv, hr⟩
        rw [hp, ← hv, ← hr]
      · intro hp
        exact ⟨_, hp, rfl, rfl⟩

/-! ### The messages -/

/-- `MsgResponse::unpack(Unpacker *)`. -/
def MsgResponse.unpack (m : MsgResponse) (r : Unpacker) : Unpacked MsgResponse :=
  (r.unpackString m.r1).andThen (fun r1 => { m with r1 := r1 }) fun r1 r =>
    (r.unpackVector m.r2).map fun r2 => ⟨r1, r2⟩

/-- `Unpacker(data, int(end - data))`.  A size that is negative as an `int` leaves nothing to read,
    for every call begins with at least one byte. -/
def Unpacker.ofRange (range : List UInt8) : Unpacker :=
  .new (range.take (Int32.ofNat range.length).toInt.toNat)

/-- The members `unpack(data, end, l)`: the calls of `unpack(Unpacker *)` on an unpacker of their
    own, and the way its cursor went in `l`.  `none` if a call has no defined behaviour. -/
def unpackRange {α : Type} (call : Unpacker → Unpacked α) (range : List UInt8) (l : Int32) :
    Option (Bool × α × Int32) :=
  match call (.ofRange range) with
  | .returned true m r => some (true, m, Int32.ofNat r.data)
  | .returned false m _ => some (false, m, l)
  | .negativeLength _ | .outOfBounds | .overflow => none

/-- `MsgRequest::unpack(data, end, l)`. -/
def MsgRequest.unpackRange (m : MsgRequest) :
    List UInt8 → Int32 → Option (Bool × MsgRequest × Int32) :=
  Monitor.unpackRange fun r => .returned (m.unpack r).1 (m.unpack r).2.1 (m.unpack r).2.2

/-- `MsgResponse::unpack(data, end, l)`. -/
def MsgResponse.unpackRange (m : MsgResponse) :
    List UInt8 → Int32 → Option (Bool × MsgResponse × Int32) :=
  Monitor.unpackRange m.unpack

/-- `MsgHeartbeat::unpack(data, end, l)`. -/
def MsgHeartbeat.unpackRange (m : MsgHeartbeat) :
    List UInt8 → Int32 → Option (Bool × MsgHeartbeat × Int32) :=
  Monitor.unpackRange fun r => .returned (m.unpack r).1 (m.unpack r).2.1 (m.unpack r).2.2

/-- A message is recovered from a range, with `l` the length of what it packs, exactly when the size
    of the range as an `int` covers what it packs. -/
theorem unpackRange_iff {α : Type} {call : Unpacker → Unpacked α} {packed : List UInt8} {m : α}
    (hpos : 0 < packed.length)
    (hcall : packed.length < 2 ^ 31 → ∀ r rest, r.buf.drop r.data = packed ++ rest →
      call r = .returned true m { r with data := r.data + packed.length })
    (hin : ∀ r ok m' r', r.data ≤ r.buf.length → call r = .returned ok m' r' →
      r'.data ≤ r.buf.length)
    (trailing : List UInt8) (l : Int32) :
    (∃ n, unpackRange call (packed ++ trailing) l = some (true, m, n) ∧
        n.toInt = packed.length) ↔
      (packed.length : Int) ≤ (Int32.ofNat (packed ++ trailing).length).toInt := by
  generalize hsize : (Int32.ofNat (packed ++ trailing).length).toInt = size
  have hmax : size < 2 ^ 31 := hsize ▸ Int32.toInt_lt _
  have hrange : Unpacker.ofRange (packed ++ trailing)
      = ⟨(packed ++ trailing).take size.toNat, 0⟩ := by
    rw [Unpacker.ofRange, hsize]
    rfl
  constructor
  · -- the cursor does not leave the buffer, which is no longer than `size`
    rintro ⟨n, h, hn⟩
    rw [unpackRange, hrange] at h
    split at h
    · rename_i m' r' hr
      have hle := hin _ _ _ _ (Nat.zero_le _) hr
      rw [List.length_take] at hle
      cases h
      rw [MsgRaw.toInt_ofNat_of_lt (by omega)] at hn
      omega
    · cases h
    · cases h
    · cases h
    · cases h
  · intro hle
    have htake : (packed ++ trailing).take size.toNat
        = packed ++ trailing.take (size.toNat - packed.length) := by
      rw [List.take_append, List.take_of_length_le (by omega)]
    refine ⟨Int32.ofNat packed.length, ?_, MsgRaw.toInt_ofNat_of_lt (by omega)⟩
    rw [unpackRange, hrange, htake, hcall (by omega) _ _ rfl]
    simp

section

variable {r r' : Unpacker} {rest : List UInt8}

/-- The cursor stays in the buffer behind a field of a fixed size. -/
theorem Unpacker.data_le_of_unpackScalar {size : Nat} {bs : List UInt8}
    (h : r.unpackScalar size = some (bs, r')) : r'.buf = r.buf ∧ r'.data ≤ r.buf.length := by
  rw [unpackScalar] at h
  split at h
  · cases h
  · cases h
    exact ⟨rfl, by simp only; omega⟩

/-- The cursor stays in the buffer behind a length. -/
theorem Unpacker.data_le_of_unpackInt {x : Int32} (h : r.unpackInt = some (x, r')) :
    r'.buf = r.buf ∧ r'.data ≤ r.buf.length := by
  obtain ⟨⟨bs, u⟩, hu, heq⟩ := Option.map_eq_some_iff.mp h
  cases heq
  exact data_le_of_unpackScalar hu

/-- A request at the cursor is unpacked into any target. -/
theorem MsgRequest.unpack_of_drop (m₀ m : MsgRequest) (h : r.buf.drop r.data = m.pack ++ rest) :
    m₀.unpack r = (true, m, { r with data := r.data + m.pack.length }) := by
  have hop : r.buf.drop r.data = int32 m.op ++ (int32 m.arg ++ rest) := by
    rw [h, pack, List.append_assoc]
  have harg : r.buf.drop (r.data + 4) = int32 m.arg ++ rest := by
    rw [← List.drop_drop, hop, List.drop_left' (length_int32 _)]
  have hlen : m.pack.length = 4 + 4 := by simp [pack]
  simp only [unpack, Unpacker.unpackInt_of_drop hop]
  rw [Unpacker.unpackInt_of_drop (r := { r with data := r.data + 4 }) harg, hlen]

/-- The message overload for `MsgRequest` stays in the buffer. -/
theorem MsgRequest.data_le_of_unpack (m : MsgRequest) (hin : r.data ≤ r.buf.length) :
    (m.unpack r).2.2.data ≤ r.buf.length := by
  rw [unpack]
  cases hop : r.unpackInt with
  | none => exact hin
  | some p =>
    obtain ⟨hbuf, hdata⟩ := Unpacker.data_le_of_unpackInt hop
    dsimp only
    cases harg : p.2.unpackInt with
    | none => exact hdata
    | some q => exact hbuf ▸ (Unpacker.data_le_of_unpackInt harg).2

/-- A heartbeat at the cursor is unpacked into any target. -/
theorem MsgHeartbeat.unpack_of_drop (m₀ m : MsgHeartbeat)
    (h : r.buf.drop r.data = m.pack ++ rest) :
    m₀.unpack r = (true, m, { r with data := r.data + m.pack.length }) := by
  have hlen : r.buf.length - r.data = 8 + rest.length := by
    rw [← List.length_drop, h, List.length_append, pack, length_word64]
  have hpack : m.pack.length = 8 := length_word64 _
  have htake : (r.buf.drop r.data).take 8 = word64 m.timestamp := by
    rw [h, pack, List.take_left' (length_word64 _)]
  rw [unpack, Unpacker.unpackDouble, Unpacker.unpackScalar, if_neg (by omega), Option.map_some,
    htake, ofWord64_word64, hpack]

/-- So does the one for `MsgHeartbeat`. -/
theorem MsgHeartbeat.data_le_of_unpack (m : MsgHeartbeat) (hin : r.data ≤ r.buf.length) :
    (m.unpack r).2.2.data ≤ r.buf.length := by
  rw [unpack, Unpacker.unpackDouble]
  cases h : r.unpackScalar 8 with
  | none => exact hin
  | some p => exact (Unpacker.data_le_of_unpackScalar h).2

/-- A response at the cursor is unpacked into a default-constructed target, unless its string is
    oversized. -/
theorem MsgResponse.unpack_of_drop (m : MsgResponse) (hr1 : m.r1.length < 2 ^ 31)
    (hr2 : m.r2.length < 2 ^ 31) (h : r.buf.drop r.data = m.pack ++ rest) :
    (Field.Oversized (.string m.r1) → (mk [] []).unpack r = .overflow) ∧
      (¬ Field.Oversized (.string m.r1) → (mk [] []).unpack r
        = .returned true m { r with data := r.data + m.pack.length }) := by
  rw [pack, List.append_assoc] at h
  obtain ⟨hover, hok⟩ := unpack_field (f := .string m.r1) hr1 h
  refine ⟨fun ho => ?_, fun ho => ?_⟩
  · have hcall : r.unpackString [] = .overflow := hover ho
    rw [unpack, hcall]
    rfl
  · have hcall : r.unpackString [] = .returned true m.r1
        { r with data := r.data + (packString m.r1).length } := hok ho
    have hdrop : r.buf.drop (r.data + (packString m.r1).length) = packVector m.r2 ++ rest := by
      rw [← List.drop_drop, h, List.drop_left]
    have hcall' : Unpacker.unpackVector { r with data := r.data + (packString m.r1).length } []
        = .returned true m.r2 _ := (unpack_field (f := .vector m.r2) hr2 hdrop).2 False.elim
    rw [unpack, hcall]
    simp only [Unpacked.andThen, Unpacked.map, hcall', Field.pack, pack, List.length_append,
      Nat.add_assoc]

/-- And so does the one for `MsgResponse`, whenever it returns. -/
theorem MsgResponse.data_le_of_unpack {m m' : MsgResponse} {ok : Bool}
    (hin : r.data ≤ r.buf.length) (h : m.unpack r = .returned ok m' r') :
    r'.data ≤ r.buf.length := by
  rw [unpack] at h
  -- the string in front, and then the vector, from the cursor that the string has left
  cases hs : r.unpackString m.r1 with
  | returned ok' s u =>
    obtain ⟨hbuf, hdata⟩ := Unpacker.data_le_of_unpackBytes (le_refl _) hin hs
    rw [hs] at h
    cases ok' with
    | false =>
      cases h
      exact hdata
    | true =>
      simp only [Unpacked.andThen, Unpacked.map] at h
      cases hv : u.unpackVector m.r2 with
      | returned ok'' v w =>
        rw [hv] at h
        have hle := (Unpacker.data_le_of_unpackBytes (Nat.zero_le _) (hbuf ▸ hdata) hv).2
        cases ok'' <;> (cases h; exact hbuf ▸ hle)
      | negativeLength | outOfBounds | overflow =>
        rw [hv] at h
        cases h
  | negativeLength | outOfBounds | overflow =>
    rw [hs] at h
    cases h

end

/-! ### The round trip -/

/-- Fields packed in order and followed by `trailing` are unpacked: every call succeeds, the values
    are recovered, and the cursor stands at the first trailing byte. -/
def Recovers (fields : List Field) (trailing : List UInt8) : Prop :=
  unpackAll (fields.map Field.type) (.new (packAll fields ++ trailing))
    = some (fields.map Field.value, ⟨packAll fields ++ trailing, (packAll fields).length⟩)

/-- Both overloads of `unpack` recover the request, and `l` is the length of what it packs. -/
def MsgRequest.Recovers (m : MsgRequest) (trailing : List UInt8) (l : Int32) : Prop :=
  (mk 0 0).unpack (.new (m.pack ++ trailing)) = (true, m, ⟨m.pack ++ trailing, m.pack.length⟩) ∧
    ∃ n, (mk 0 0).unpackRange (m.pack ++ trailing) l = some (true, m, n) ∧
      n.toInt = m.pack.length

/-- Both overloads of `unpack` recover the response. -/
def MsgResponse.Recovers (m : MsgResponse) (trailing : List UInt8) (l : Int32) : Prop :=
  (mk [] []).unpack (.new (m.pack ++ trailing))
      = .returned true m ⟨m.pack ++ trailing, m.pack.length⟩ ∧
    ∃ n, (mk [] []).unpackRange (m.pack ++ trailing) l = some (true, m, n) ∧
      n.toInt = m.pack.length

/-- Both overloads of `unpack` recover the heartbeat. -/
def MsgHeartbeat.Recovers (m : MsgHeartbeat) (trailing : List UInt8) (l : Int32) : Prop :=
  new.unpack (.new (m.pack ++ trailing)) = (true, m, ⟨m.pack ++ trailing, m.pack.length⟩) ∧
    ∃ n, new.unpackRange (m.pack ++ trailing) l = some (true, m, n) ∧ n.toInt = m.pack.length

/-- The size of a range, converted to an `int`, covers the message at its beginning. -/
def SizeCovers (packed trailing : List UInt8) : Prop :=
  (packed.length : Int) ≤ (Int32.ofNat (packed ++ trailing).length).toInt

/-- A message whose calls always return is recovered by both overloads exactly when the size covers
    it. -/
theorem recovers_iff_of_total {α : Type} {unpack : Unpacker → Bool × α × Unpacker}
    {packed : List UInt8} {m : α} (hpos : 0 < packed.length)
    (hunpack : ∀ r rest, r.buf.drop r.data = packed ++ rest →
      unpack r = (true, m, { r with data := r.data + packed.length }))
    (hin : ∀ r, r.data ≤ r.buf.length → (unpack r).2.2.data ≤ r.buf.length)
    (trailing : List UInt8) (l : Int32) :
    (unpack (.new (packed ++ trailing)) = (true, m, ⟨packed ++ trailing, packed.length⟩) ∧
      ∃ n, unpackRange (fun r => .returned (unpack r).1 (unpack r).2.1 (unpack r).2.2)
          (packed ++ trailing) l = some (true, m, n) ∧ n.toInt = packed.length) ↔
      SizeCovers packed trailing := by
  have hfirst : unpack (.new (packed ++ trailing))
      = (true, m, ⟨packed ++ trailing, packed.length⟩) := by
    rw [hunpack _ trailing rfl]
    simp [Unpacker.new]
  refine (and_iff_right hfirst).trans (unpackRange_iff hpos ?_ ?_ trailing l)
  · intro _ r rest h
    rw [hunpack r rest h]
  · intro r ok m' r' hr h
    cases h
    exact hin r hr

/-- A `MsgRequest` is recovered exactly if the size on the wire covers the buffer. -/
theorem MsgRequest.recovers_iff (m : MsgRequest) (trailing : List UInt8) (l : Int32) :
    m.Recovers trailing l ↔ SizeCovers m.pack trailing :=
  recovers_iff_of_total (by simp [pack]) (fun _ _ => unpack_of_drop _ m)
    (fun _ => data_le_of_unpack _) trailing l

/-- So is a `MsgHeartbeat`. -/
theorem MsgHeartbeat.recovers_iff (m : MsgHeartbeat) (trailing : List UInt8) (l : Int32) :
    m.Recovers trailing l ↔ SizeCovers m.pack trailing :=
  recovers_iff_of_total (by simp [pack]) (fun _ _ => unpack_of_drop _ m)
    (fun _ => data_le_of_unpack _) trailing l

/-- What a response packs is longer than its string by the length and the terminator at least. -/
theorem MsgResponse.length_lt_length_pack (m : MsgResponse) : m.r1.length + 1 < m.pack.length := by
  rw [pack, packString, List.length_append]
  by_cases h : m.r1.isEmpty
  · rw [if_pos h, List.isEmpty_iff.mp h, length_int32, List.length_nil]
    omega
  · rw [if_neg h, List.length_append, List.length_append, length_int32, List.length_singleton]
    omega

/-- And so is a `MsgResponse` whose strings are not too long. -/
theorem MsgResponse.recovers_iff (m : MsgResponse) (hr1 : m.r1.length < 2 ^ 31)
    (hr2 : m.r2.length < 2 ^ 31) (trailing : List UInt8) (l : Int32) :
    m.Recovers trailing l ↔ SizeCovers m.pack trailing := by
  have hlen := m.length_lt_length_pack
  have hrange : (∃ n, (mk [] []).unpackRange (m.pack ++ trailing) l = some (true, m, n) ∧
      n.toInt = m.pack.length) ↔ SizeCovers m.pack trailing := by
    refine unpackRange_iff (by omega) ?_ (fun r ok m' r' => data_le_of_unpack) trailing l
    intro hint r rest h
    exact (unpack_of_drop m hr1 hr2 h).2 fun ho => by
      have hover : 2 ^ 31 ≤ m.r1.length + 1 := ho
      omega
  refine ⟨fun h => hrange.mp h.2, fun h => ⟨?_, hrange.mpr h⟩⟩
  -- a message that an `int` counts has no oversized string
  have hint : (m.pack.length : Int) < 2 ^ 31 := lt_of_le_of_lt h (Int32.toInt_lt _)
  have hsmall : ¬ Field.Oversized (.string m.r1) := fun ho => by
    have hover : 2 ^ 31 ≤ m.r1.length + 1 := ho
    omega
  rw [(unpack_of_drop m hr1 hr2 rfl).2 hsmall]
  simp [Unpacker.new]

/-- **Fields are recovered exactly if none of them is oversized.** -/
theorem recovers_iff (fields : List Field) (hfit : ∀ f ∈ fields, f.Fits) (trailing : List UInt8) :
    Recovers fields trailing ↔ ∀ f ∈ fields, ¬ f.Oversized := by
  have h := unpackAll_packAll fields hfit (r := .new (packAll fields ++ trailing)) rfl
  rwa [show (Unpacker.new (packAll fields ++ trailing)).data + (packAll fields).length
    = (packAll fields).length from Nat.zero_add _] at h

/-- **Packing round trip.**  Fields whose lengths are `int`s are recovered, with the cursor at the
    first trailing byte, exactly when no string is so long that its length and terminator overflow;
    a message is recovered by both its overloads, with `l` the length of what it packs, exactly when
    the size of the whole range, converted to an `int`, covers it. -/
theorem packing_roundtrip (fields : List Field) (hfit : ∀ f ∈ fields, f.Fits)
    (trailing : List UInt8) (req : MsgRequest) (hb : MsgHeartbeat) (res : MsgResponse)
    (hr1 : res.r1.length < 2 ^ 31) (hr2 : res.r2.length < 2 ^ 31) (l : Int32) :
    (Recovers fields trailing ↔ ∀ f ∈ fields, ¬ f.Oversized) ∧
      (req.Recovers trailing l ↔ SizeCovers req.pack trailing) ∧
      (res.Recovers trailing l ↔ SizeCovers res.pack trailing) ∧
      (hb.Recovers trailing l ↔ SizeCovers hb.pack trailing) :=
  ⟨recovers_iff fields hfit trailing, req.recovers_iff trailing l,
    res.recovers_iff hr1 hr2 trailing l, hb.recovers_iff trailing l⟩

/-- A number, an empty string, a string with a NUL in it and a vector are recovered, and so are one
    message of each kind. -/
theorem packing_roundtrip_small :
    Recovers [.scalar (int32 7) nofun, .string [], .string [65, 0, 66], .vector [0, 1]] [9, 9] ∧
      (MsgRequest.mk 7 (-1)).Recovers [9, 9] 0 ∧ (MsgResponse.mk [65, 0] []).Recovers [9, 9] 0 ∧
      (MsgHeartbeat.mk 3).Recovers [9, 9] 0 := by
  have h := packing_roundtrip
    [.scalar (int32 7) nofun, .string [], .string [65, 0, 66], .vector [0, 1]]
    (by simp [Field.Fits]) [9, 9] ⟨7, -1⟩ ⟨3⟩ ⟨[65, 0], []⟩ (by decide) (by decide) 0
  refine ⟨h.1.mpr (by simp [Field.Oversized]), h.2.1.mpr ?_, h.2.2.1.mpr ?_, h.2.2.2.mpr ?_⟩
  · unfold SizeCovers
    decide
  · unfold SizeCovers
    decide
  · unfold SizeCovers
    decide

/-- **`l + 1` overflows.**  A string of `2 ^ 31 - 1` bytes is packed and its length is an `int`, but
    `data_ += l + 1` is not defined for it; and a request in front of `2 ^ 31` bytes is not
    recovered from the range, for `int(end - data)` is negative. -/
theorem largest_string_not_recovered :
    Field.Fits (.string (List.replicate (2 ^ 31 - 1) 65)) ∧
      ¬ Recovers [.string (List.replicate (2 ^ 31 - 1) 65)] [] ∧
      ¬ (MsgRequest.mk 1 2).Recovers (List.replicate (2 ^ 31) 65) 0 := by
  have hlen : (List.replicate (2 ^ 31 - 1) (65 : UInt8)).length = 2 ^ 31 - 1 :=
    List.length_replicate
  have hfit : Field.Fits (.string (List.replicate (2 ^ 31 - 1) 65)) := by
    rw [Field.Fits, hlen]
    omega
  refine ⟨hfit, ?_, ?_⟩
  · rw [recovers_iff _ (List.forall_mem_singleton.mpr hfit)]
    intro h
    refine h _ List.mem_cons_self ?_
    rw [Field.Oversized, hlen]
    omega
  · rw [MsgRequest.recovers_iff, SizeCovers, List.length_append, List.length_replicate]
    decide

end CPlayground.Monitor
