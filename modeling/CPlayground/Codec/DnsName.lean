import CPlayground.Lib.Loop
import CPlayground.Lib.Memory
import Mathlib.Data.UInt

namespace CPlayground

open Loop Memory

/-!
# Names in DNS messages

`name_encode` puts a count in front of every label of a host name, `name_decode` replaces the counts
by dots again.  Both rewrite a buffer from left to right.

* `DnsName.nameEncode_host` — the encoder writes the counts and the labels.
* `DnsName.nameDecode_labels` — the decoder restores a host name of two labels or more.
* `DnsName.name_round_trip` — a host name of one label is not restored: the decoder takes the
  terminator for a count and looks behind it.
-/

namespace DnsName

/-- `DOT`. -/
def dot : UInt8 := 0x2e

/-- `(int)strlen(s)`. -/
def toInt (len : Nat) : Int := (Int32.ofNat len).toInt

/-- `N + 1`, if that is an `int`. -/
def addOne (N : Int) : Option Int := if N + 1 < 2 ^ 31 then some (N + 1) else none

/-- The conversion to `size_t`. -/
def sizeT (z : Int) : Nat := (z % 2 ^ 64).toNat

/-! ### The encoder -/

/-- The variables of `name_encode`: the buffer, and `q` as a position in it. -/
structure Encoder where
  dst : Mem
  q : Option Nat

/-- The body of the loop of `name_encode`. -/
def encodeRound (N : Int) (s : Encoder) : Option Encoder :=
  s.q.bind fun p => (strchr dot (s.dst.drop (p + 1))).bind fun
    | some k => (write s.dst p (UInt8.ofInt ((p + 1 + k : Nat) - p - 1))).map fun dst =>
        { dst, q := some (p + 1 + k) }
    -- the last label has what is left of the name
    | none   => (write s.dst p (UInt8.ofInt (N - p))).map fun dst => { dst, q := none }

/-- `name_encode(dst, src)`, for at most `fuel` rounds of the loop: the buffer. -/
def nameEncode (fuel : Nat) (dst src : Mem) : Option Mem :=
  (strlen src).bind fun len =>
    (addOne (toInt len)).bind fun n => (memcpy dst 1 src (sizeT n)).bind fun dst =>
      (run (fun s => s.q.isSome) (encodeRound (toInt len)) fuel { dst, q := some 0 }).map
        Encoder.dst

/-! ### The decoder -/

/-- The variables of `name_decode`: the buffer, `p` as a position in it, `n`, and whether there is
    another round. -/
structure Decoder where
  dst : Mem
  p : Nat
  n : UInt8
  go : Bool

/-- The body of the loop of `name_decode`, and its condition. -/
def decodeRound (s : Decoder) : Option Decoder :=
  (load s.dst (s.p + s.n.toNat)).bind fun m => (write s.dst (s.p + s.n.toNat) dot).bind fun dst =>
    -- the loop goes on if the byte behind the next label is not zero
    (load dst (s.p + s.n.toNat + (m + 1).toNat)).map fun c : UInt8 =>
      { dst, p := s.p + s.n.toNat, n := m + 1, go := c ≠ 0 }

/-- `name_decode(dst, src)`, for at most `fuel` rounds of the loop: the buffer.  `none` is the call
    with `src` as the buffer. -/
def nameDecode (fuel : Nat) (dst : Option Mem) (src : Mem) : Option Mem :=
  (strlen src).bind fun len => (deref src).bind fun c =>
    (match dst with
      | none     => some src
      | some dst => (addOne (toInt len)).bind fun n => memcpy dst 0 src (sizeT n)).bind fun dst =>
    (run Decoder.go decodeRound fuel { dst, p := 0, n := c + 1, go := true }).bind fun s =>
      memcpy s.dst 0 (s.dst.drop 1) (sizeT (toInt len))

/-! ### Host names -/

/-- A label of a host name: it is not empty, its length has six bits, and it has neither a dot nor a
    NUL in it. -/
structure Label (l : List UInt8) : Prop where
  ne_nil : l ≠ []
  length_le : l.length ≤ 63
  dot_not_mem : dot ∉ l
  zero_not_mem : 0 ∉ l

instance (l : List UInt8) : Decidable (Label l) :=
  decidable_of_iff (l ≠ [] ∧ l.length ≤ 63 ∧ dot ∉ l ∧ 0 ∉ l)
    ⟨fun ⟨hne, hlen, hdot, hzero⟩ => ⟨hne, hlen, hdot, hzero⟩,
      fun h => ⟨h.ne_nil, h.length_le, h.dot_not_mem, h.zero_not_mem⟩⟩

/-- What stands between two dots of a string.  It may be empty, and longer than a label. -/
structure Piece (l : List UInt8) : Prop where
  dot_not_mem : dot ∉ l
  zero_not_mem : 0 ∉ l

/-- A label has neither a dot nor a NUL in it. -/
theorem Label.piece {l : List UInt8} (hl : Label l) : Piece l := ⟨hl.dot_not_mem, hl.zero_not_mem⟩

/-- The host name. -/
def host (ls : List (List UInt8)) : List UInt8 := [dot].intercalate ls

/-- The byte in front of a label. -/
def count (l : List UInt8) : UInt8 := UInt8.ofNat l.length

/-- The encoded name without the terminator. -/
def encoded (ls : List (List UInt8)) : List UInt8 :=
  ls.flatMap fun l => count l :: l

variable {l l' : List UInt8} {ls : List (List UInt8)}

/-- A host name of one label is the label. -/
theorem host_singleton : host [l] = l := by simp [host, List.intercalate]

/-- A host name of more labels has a dot behind the first one. -/
theorem host_cons_cons : host (l :: l' :: ls) = l ++ dot :: host (l' :: ls) := by
  simp [host, List.intercalate, List.intersperse]

/-- One label with its count. -/
theorem encoded_singleton : encoded [l] = count l :: l := by simp [encoded]

/-- The first label with its count, and the others. -/
theorem encoded_cons (l : List UInt8) (ls : List (List UInt8)) :
    encoded (l :: ls) = count l :: (l ++ encoded ls) := by
  simp [encoded]

/-- Every dot becomes a count, and there is one count more. -/
theorem length_encoded : (encoded (l :: ls)).length = (host (l :: ls)).length + 1 := by
  induction ls generalizing l with
  | nil => simp [host_singleton, encoded_singleton]
  | cons l' ls ih =>
    rw [encoded_cons, host_cons_cons, List.length_cons, List.length_append, ih, List.length_append,
      List.length_cons]

/-- There are not more labels than characters. -/
theorem length_le_host : ls.length ≤ (host (l :: ls)).length := by
  induction ls generalizing l with
  | nil => exact Nat.zero_le _
  | cons l' ls ih =>
    have hrest := ih (l := l')
    rw [host_cons_cons, List.length_append, List.length_cons, List.length_cons]
    omega

/-- The count of a label does not wrap around. -/
theorem toNat_count (hl : Label l) : (count l).toNat = l.length := by
  have hlen := hl.length_le
  exact UInt8.toNat_ofNat_of_lt' (by show _ < 256; omega)

/-- The label has as many bytes as its count says. -/
theorem length_map_some (hl : Label l) : (l.map some).length = (count l).toNat := by
  rw [toNat_count hl, List.length_map]

/-- A count is never taken for the terminator. -/
theorem count_ne_zero (hl : Label l) : count l ≠ 0 := by
  intro h
  have hzero := congrArg UInt8.toNat h
  rw [toNat_count hl] at hzero
  exact hl.ne_nil (List.length_eq_zero_iff.mp hzero)

/-- Nor is it the largest number of a byte. -/
theorem count_lt (hl : Label l) : (count l).toNat < 255 := by
  have hlen := hl.length_le
  rw [toNat_count hl]
  omega

/-- So the byte behind the label is one further on. -/
theorem toNat_count_add_one (hl : Label l) : (count l + 1).toNat = l.length + 1 := by
  have hlen := hl.length_le
  rw [UInt8.toNat_add, toNat_count hl]
  show (l.length + 1) % 256 = _
  omega

/-- The count of a label is taken modulo 256. -/
theorem ofInt_count {z : Int} (hz : z = l.length) : UInt8.ofInt z = count l := by
  have hmod : (z % 2 ^ 8).toNat = l.length % 2 ^ 8 := by omega
  apply UInt8.toNat_inj.mp
  rw [UInt8.ofInt, hmod, count, UInt8.toNat_ofNat', UInt8.toNat_ofNat', Nat.mod_mod]

/-- A host name has no NUL in it. -/
theorem zero_not_mem_host (hls : ∀ l' ∈ l :: ls, Piece l') : 0 ∉ host (l :: ls) := by
  induction ls generalizing l with
  | nil =>
    rw [host_singleton]
    exact (hls l List.mem_cons_self).zero_not_mem
  | cons l' ls ih =>
    rw [List.forall_mem_cons] at hls
    rw [host_cons_cons, List.mem_append, List.mem_cons]
    rintro (h | h | h)
    · exact hls.1.zero_not_mem h
    · exact absurd h (by decide)
    · exact ih hls.2 h

/-- An encoded name has no zero before its end. -/
theorem zero_not_mem_encoded (hls : ∀ l ∈ ls, Label l) : 0 ∉ encoded ls := by
  intro h
  obtain ⟨l, hl, h0⟩ := List.mem_flatMap.mp h
  rcases List.mem_cons.mp h0 with hcount | h0
  · exact count_ne_zero (hls l hl) hcount.symm
  · exact (hls l hl).zero_not_mem h0

/-! ### Encoding a host name -/

variable {pre post : Mem} {x : Option UInt8} {fuel : Nat}

/-- A round at the beginning of a label that is not the last one. -/
theorem encodeRound_dot (N : Int) (hl : Piece l) :
    encodeRound N { dst := pre ++ x :: (l.map some ++ some dot :: post), q := some pre.length }
      = some { dst := pre ++ some (count l) :: (l.map some ++ some dot :: post)
               q := some (pre.length + (l.length + 1)) } := by
  have hdrop : (pre ++ x :: (l.map some ++ some dot :: post)).drop (pre.length + 1)
      = l.map some ++ some dot :: post := by simp
  have hchr : strchr dot (l.map some ++ some dot :: post) = some (some l.length) := by
    rw [strchr_append hl.dot_not_mem hl.zero_not_mem]
    simp [strchr]
  simp only [encodeRound, Option.bind_some, hdrop, hchr]
  rw [write_append, ofInt_count (l := l) (by omega), Nat.add_assoc, Nat.add_comm 1]
  rfl

/-- A round at the beginning of the last label. -/
theorem encodeRound_end {N : Int} (hl : Piece l) (hN : N = pre.length + l.length) :
    encodeRound N { dst := pre ++ x :: (l.map some ++ some 0 :: post), q := some pre.length }
      = some { dst := pre ++ some (count l) :: (l.map some ++ some 0 :: post)
               q := none } := by
  have hdrop : (pre ++ x :: (l.map some ++ some 0 :: post)).drop (pre.length + 1)
      = l.map some ++ some 0 :: post := by simp
  have hchr : strchr dot (l.map some ++ some 0 :: post) = some none := by
    rw [strchr_append hl.dot_not_mem hl.zero_not_mem]
    simp [strchr, dot]
  simp only [encodeRound, Option.bind_some, hdrop, hchr]
  rw [write_append, ofInt_count (l := l) (by omega)]
  rfl

/-- **The loop of the encoder**, from the beginning of a label on.  The induction is on the labels;
    `pre` is what was encoded before, and `x` the place for the next count. -/
theorem encodeLoop {N : Int} (pre : Mem) (x : Option UInt8) (post : Mem)
    (hls : ∀ l' ∈ l :: ls, Piece l')
    (hN : N = pre.length + (host (l :: ls)).length) (hfuel : ls.length < fuel) :
    run (fun s => s.q.isSome) (encodeRound N) fuel
        { dst := pre ++ x :: ((host (l :: ls)).map some ++ some 0 :: post), q := some pre.length }
      = some { dst := pre ++ ((encoded (l :: ls)).map some ++ some 0 :: post), q := none } := by
  induction ls generalizing l pre x fuel with
  | nil =>
    obtain ⟨fuel, rfl⟩ : ∃ k, fuel = k + 1 := ⟨fuel - 1, by omega⟩
    rw [host_singleton] at hN ⊢
    rw [run_succ rfl (encodeRound_end (hls l List.mem_cons_self) hN), run_of_not rfl]
    rw [encoded_singleton]
    rfl
  | cons l' ls ih =>
    rw [List.length_cons] at hfuel
    obtain ⟨fuel, rfl⟩ : ∃ k, fuel = k + 1 := ⟨fuel - 1, by omega⟩
    rw [List.forall_mem_cons] at hls
    rw [host_cons_cons] at hN ⊢
    -- the next round is at the dot behind the label
    have hlt : ls.length < fuel := by omega
    have hnext := ih (pre ++ some (count l) :: l.map some) (some dot) hls.2
      (by simp at hN ⊢; omega) hlt
    rw [List.map_append, List.append_assoc, List.map_cons, List.cons_append,
      run_succ rfl (encodeRound_dot N hls.1)]
    simp only [List.length_append, List.length_cons, List.length_map, List.append_assoc,
      List.cons_append] at hnext ⊢
    rw [hnext, encoded_cons l]
    simp

/-- A length below `2 ^ 31` is kept by the conversion to `int`. -/
theorem toInt_eq {len : Nat} (h : len < 2 ^ 31) : toInt len = len := Int32.toInt_ofNat_of_lt h

/-- One can be added to it if the result is below `2 ^ 31`, too. -/
theorem addOne_toInt {len : Nat} (h : len + 1 < 2 ^ 31) :
    addOne (toInt len) = some ((len + 1 : Nat) : Int) := by
  rw [toInt_eq (by omega), addOne, if_pos (by omega)]
  rfl

/-- And it is the same as a `size_t`. -/
theorem sizeT_natCast {n : Nat} (h : n < 2 ^ 31) : sizeT n = n := by
  rw [sizeT]
  omega

/-- **The encoder** writes the counts and the labels, and nothing behind them but the terminator,
    for pieces of any length. -/
theorem nameEncode_host {dst : Mem} (hls : ∀ l' ∈ l :: ls, Piece l')
    (hlen : (host (l :: ls)).length + 1 < 2 ^ 31)
    (hdst : (host (l :: ls)).length + 2 ≤ dst.length) (hfuel : ls.length < fuel) :
    nameEncode fuel dst (cstr (host (l :: ls)))
      = some (cstr (encoded (l :: ls)) ++ dst.drop ((host (l :: ls)).length + 2)) := by
  obtain ⟨x, dst, rfl⟩ := List.exists_cons_of_length_pos (l := dst) (by omega)
  have hmid : (dst.take ((host (l :: ls)).length + 1)).length = (cstr (host (l :: ls))).length := by
    rw [List.length_cons] at hdst
    rw [length_cstr, List.length_take]
    omega
  have hcopy : memcpy (x :: dst) 1 (cstr (host (l :: ls))) ((host (l :: ls)).length + 1)
      = some (x :: (cstr (host (l :: ls)) ++ dst.drop ((host (l :: ls)).length + 1))) := by
    have h := memcpy_append [x] _ (dst.drop ((host (l :: ls)).length + 1)) (cstr (host (l :: ls)))
      [] hmid
    rw [List.take_append_drop, length_cstr, List.append_nil] at h
    exact h
  have hloop := encodeLoop [] x (dst.drop ((host (l :: ls)).length + 1))
    hls (N := toInt (host (l :: ls)).length) (by simp [toInt_eq (Nat.lt_of_succ_lt hlen)]) hfuel
  unfold nameEncode
  rw [strlen_cstr (zero_not_mem_host hls), Option.bind_some, addOne_toInt hlen, Option.bind_some,
    sizeT_natCast hlen, hcopy, Option.bind_some, cstr_append, cstr_append]
  exact congrArg (Option.map Encoder.dst) hloop

/-! ### Decoding an encoded name -/

/-- A round that finds the count `b`, with `c` behind the label that it counts. -/
theorem decodeRound_eq {front w : Mem} {p : Nat} {n b : UInt8}
    (hp : p + n.toNat = front.length) (hw : w.length = b.toNat) (hb : b.toNat < 255) (c : UInt8)
    (post : Mem) (go : Bool) :
    decodeRound { dst := front ++ some b :: (w ++ some c :: post), p, n, go }
      = some { dst := front ++ some dot :: (w ++ some c :: post), p := front.length, n := b + 1
               go := c ≠ 0 } := by
  have hnext : front.length + (b + 1).toNat = (front ++ some dot :: w).length := by
    rw [UInt8.toNat_add, List.length_append, List.length_cons, hw]
    show _ + (b.toNat + 1) % 256 = _
    omega
  have hload := load_append (front ++ some dot :: w) c post
  rw [← hnext, List.append_assoc, List.cons_append] at hload
  simp only [decodeRound, hp, load_append, write_append, Option.bind_some, hload, Option.map_some]

/-- **The loop of the decoder**, from the count of a label on.  The induction is on the labels; in
    front of the count there are the labels that were decoded before. -/
theorem decodeLoop {front : Mem} {p : Nat} {n : UInt8} (post : Mem) (hls : ∀ l' ∈ l :: ls, Label l')
    (hp : p + n.toNat = front.length) (hfuel : ls.length < fuel) :
    ∃ s, run Decoder.go decodeRound fuel
        { dst := front ++ ((encoded (l :: ls)).map some ++ some 0 :: post), p, n, go := true }
        = some s ∧
      s.dst = front ++ some dot :: ((host (l :: ls)).map some ++ some 0 :: post) := by
  induction ls generalizing l front p n fuel with
  | nil =>
    have hl := hls l List.mem_cons_self
    obtain ⟨fuel, rfl⟩ : ∃ k, fuel = k + 1 := ⟨fuel - 1, by omega⟩
    have hround := decodeRound_eq hp (length_map_some hl) (count_lt hl) 0 post true
    rw [host_singleton, encoded_singleton]
    exact ⟨_, (run_succ rfl hround).trans (run_of_not rfl), rfl⟩
  | cons l' ls ih =>
    rw [List.forall_mem_cons] at hls
    obtain ⟨hl, hls⟩ := hls
    rw [List.length_cons] at hfuel
    obtain ⟨fuel, rfl⟩ : ∃ k, fuel = k + 1 := ⟨fuel - 1, by omega⟩
    have hround := decodeRound_eq hp (length_map_some hl) (count_lt hl) (count l')
      ((l' ++ encoded ls).map some ++ some 0 :: post) true
    -- behind the label there is the count of the next one, so there is another round
    have hgo : decide (count l' ≠ 0) = true :=
      decide_eq_true (count_ne_zero (hls l' List.mem_cons_self))
    rw [hgo] at hround
    have hnext : front.length + (count l + 1).toNat = (front ++ some dot :: l.map some).length := by
      rw [toNat_count_add_one hl, List.length_append, List.length_cons, List.length_map]
    have hlt : ls.length < fuel := by omega
    obtain ⟨s, hrun, hdst⟩ := ih hls hnext hlt
    refine ⟨s, ?_, ?_⟩
    · rw [encoded_cons l, encoded_cons l']
      rw [encoded_cons l'] at hrun
      simp only [List.map_cons, List.map_append, List.cons_append, List.append_assoc]
        at hround hrun ⊢
      rw [run_succ rfl hround, hrun]
    · rw [hdst, host_cons_cons]
      simp

/-- What the decoder does in the buffer: the counts behind the first label become dots, and then all
    of it is moved over the first count. -/
theorem decode_buffer {tail : Mem} (hls : ∀ l'' ∈ l :: l' :: ls, Label l'')
    (hlen : (host (l :: l' :: ls)).length + 1 < 2 ^ 31) (hfuel : ls.length < fuel) :
    ((run Decoder.go decodeRound fuel
        { dst := cstr (encoded (l :: l' :: ls)) ++ tail
          p := 0, n := count l + 1, go := true }).bind
      fun s => memcpy s.dst 0 (s.dst.drop 1) (sizeT (toInt (encoded (l :: l' :: ls)).length)))
      = some (cstr (host (l :: l' :: ls)) ++ some 0 :: tail) := by
  rw [List.forall_mem_cons] at hls
  have hfront : 0 + (count l + 1).toNat = (some (count l) :: l.map some).length := by
    rw [toNat_count_add_one hls.1, List.length_cons, List.length_map, Nat.zero_add]
  obtain ⟨s, hrun, hdst⟩ := decodeLoop tail hls.2 hfront hfuel
  have hbuf : cstr (encoded (l :: l' :: ls)) ++ tail
      = some (count l) :: l.map some ++ ((encoded (l' :: ls)).map some ++ some 0 :: tail) := by
    rw [cstr_append, encoded_cons l]
    simp
  have hmove : s.dst = some (count l) :: (host (l :: l' :: ls)).map some ++ some 0 :: tail := by
    rw [hdst, host_cons_cons]
    simp
  have hcopy := memcpy_append [] (some (count l) :: (host (l :: l' :: ls)).map some)
    (some 0 :: tail) (cstr (host (l :: l' :: ls))) tail (by simp)
  rw [length_encoded, toInt_eq hlen, sizeT_natCast hlen, hbuf, hrun, Option.bind_some, hmove]
  rw [length_cstr, cstr_append] at hcopy
  exact hcopy

/-- **The decoder in place** restores a host name of two labels or more, and does not touch what is
    behind the encoded name. -/
theorem nameDecode_labels (hls : ∀ l'' ∈ l :: l' :: ls, Label l'')
    (hlen : (host (l :: l' :: ls)).length + 1 < 2 ^ 31) (hfuel : ls.length < fuel) (rest : Mem) :
    nameDecode fuel none (cstr (encoded (l :: l' :: ls)) ++ rest)
      = some (cstr (host (l :: l' :: ls)) ++ some 0 :: rest) := by
  have hderef : deref (cstr (encoded (l :: l' :: ls)) ++ rest) = some (count l) := by
    rw [encoded_cons]
    rfl
  rw [nameDecode, strlen_append (zero_not_mem_encoded hls), Option.bind_some, hderef,
    Option.bind_some, Option.bind_some]
  exact decode_buffer hls hlen hfuel

/-- **The decoder in another buffer** does there what it does in place, as it copies the encoded
    name first. -/
theorem nameDecode_labels_to {dst : Mem} (hls : ∀ l'' ∈ l :: l' :: ls, Label l'')
    (hlen : (host (l :: l' :: ls)).length + 2 < 2 ^ 31)
    (hdst : (host (l :: l' :: ls)).length + 2 ≤ dst.length) (hfuel : ls.length < fuel)
    (rest : Mem) :
    nameDecode fuel (some dst) (cstr (encoded (l :: l' :: ls)) ++ rest)
      = some (cstr (host (l :: l' :: ls)) ++
          some 0 :: dst.drop ((host (l :: l' :: ls)).length + 2)) := by
  have hderef : deref (cstr (encoded (l :: l' :: ls)) ++ rest) = some (count l) := by
    rw [encoded_cons]
    rfl
  have hmid : (dst.take ((host (l :: l' :: ls)).length + 2)).length
      = (cstr (encoded (l :: l' :: ls))).length := by
    rw [length_cstr, length_encoded, List.length_take]
    omega
  have hcopy := memcpy_append [] _ (dst.drop ((host (l :: l' :: ls)).length + 2)) _ rest hmid
  rw [List.nil_append, List.take_append_drop, length_cstr, length_encoded, List.length_nil] at hcopy
  rw [nameDecode, strlen_append (zero_not_mem_encoded hls), Option.bind_some, hderef,
    Option.bind_some, length_encoded, addOne_toInt hlen]
  simp only [Option.bind_some]
  rw [sizeT_natCast hlen, hcopy, Option.bind_some, ← length_encoded]
  exact decode_buffer hls (by omega) hfuel

/-- The terminator of a single label is taken for a count: the decoder overwrites it and looks
    behind it. -/
theorem nameDecode_single (hl : Label l) : nameDecode fuel none (cstr (encoded [l])) = none := by
  have hbuf : cstr (encoded [l]) = some (count l) :: l.map some ++ [some 0] := by
    rw [encoded_singleton]
    simp [cstr]
  have hfront : 0 + (count l + 1).toNat = (some (count l) :: l.map some).length := by
    rw [toNat_count_add_one hl, List.length_cons, List.length_map, Nat.zero_add]
  have hround : decodeRound { dst := cstr (encoded [l]), p := 0, n := count l + 1, go := true }
      = none := by
    simp only [decodeRound, hbuf, hfront, load_append, write_append, Option.bind_some]
    rw [load_eq_none (by simp), Option.map_none]
  have hlabel : ∀ l' ∈ [l], Label l' := by simpa using hl
  rw [nameDecode, strlen_cstr (zero_not_mem_encoded hlabel), Option.bind_some]
  rw [encoded_singleton] at hround ⊢
  simp only [cstr, List.cons_append, List.map_cons, deref, Option.bind_some]
  exact congrArg (Option.bind · _) (run_eq_none rfl hround)

/-! ### The round trip -/

/-- What the two functions are for: decoding gives the host name as a C string, in place and in
    another buffer, whatever is behind the encoded name, and leaves that as it is. -/
def RoundTrip (ls : List (List UInt8)) : Prop :=
  ∀ dst : Mem, (host ls).length + 2 ≤ dst.length → ∀ fuel, ls.length ≤ fuel →
    ∃ name, name.length = (host ls).length + 2 ∧
      nameEncode fuel dst (cstr (host ls)) = some (name ++ dst.drop ((host ls).length + 2)) ∧
      ∀ rest,
        (∃ b, nameDecode fuel none (name ++ rest) = some (cstr (host ls) ++ b :: rest)) ∧
        ∀ d : Mem, (host ls).length + 2 ≤ d.length →
          ∃ b, nameDecode fuel (some d) (name ++ rest)
            = some (cstr (host ls) ++ b :: d.drop ((host ls).length + 2))

/-- **The round trip** succeeds exactly if there are two labels or more, for host names whose length
    is far enough from the largest `int`. -/
theorem name_round_trip (hls : ∀ l ∈ ls, Label l) (hne : ls ≠ [])
    (hlen : (host ls).length + 2 < 2 ^ 31) : RoundTrip ls ↔ 2 ≤ ls.length := by
  match ls, hne with
  | [l], _ =>
    -- nothing behind the encoded name is enough for the decoder to fail
    refine iff_of_false (fun h => ?_) (by simp)
    have hroom : (host [l]).length + 2 ≤ (malloc ((host [l]).length + 2)).length := by simp [malloc]
    obtain ⟨name, hname, hencode, hdecode⟩ := h _ hroom 1 (Nat.le_refl _)
    have hpieces : ∀ l' ∈ [l], Piece l' := fun l' hl' => (hls l' hl').piece
    rw [nameEncode_host hpieces (by omega) hroom (by simp), Option.some_inj] at hencode
    have heq : cstr (encoded [l]) = name :=
      (List.append_inj hencode (by rw [length_cstr, length_encoded, hname])).1
    obtain ⟨⟨b, hb⟩, -⟩ := hdecode []
    rw [← heq, List.append_nil, nameDecode_single (hls l List.mem_cons_self)] at hb
    cases hb
  | l :: l' :: ls, _ =>
    refine iff_of_true (fun dst hdst fuel hfuel => ?_) (by simp)
    rw [List.length_cons, List.length_cons] at hfuel
    refine ⟨cstr (encoded (l :: l' :: ls)), by rw [length_cstr, length_encoded],
      nameEncode_host (fun l hl => (hls l hl).piece) (by omega) hdst (by simp; omega),
      fun rest => ⟨⟨some 0, ?_⟩, ?_⟩⟩
    · exact nameDecode_labels hls (by omega) (by omega) rest
    · intro d hd
      exact ⟨some 0, nameDecode_labels_to hls hlen hd (by omega) rest⟩

/-- The host name `ab.c`. -/
theorem name_round_trip_two : RoundTrip [[0x61, 0x62], [0x63]] ∧
    nameDecode 1 none (cstr [2, 0x61, 0x62, 1, 0x63])
      = some (cstr [0x61, 0x62, dot, 0x63] ++ [some 0]) :=
  ⟨(name_round_trip (by decide) (by decide) (by decide)).mpr (by decide), by decide⟩

/-- The host name `abc`.  With a zero behind the encoded name the decoder makes `abc..` of it, and
    without a byte there it reads outside of the buffer. -/
theorem name_round_trip_single :
    nameEncode 1 (malloc 5) (cstr [0x61, 0x62, 0x63]) = some (cstr [3, 0x61, 0x62, 0x63]) ∧
    nameDecode 1 none (cstr [3, 0x61, 0x62, 0x63] ++ [some 0])
      = some (cstr [0x61, 0x62, 0x63, dot, dot]) ∧
    nameDecode 1 none (cstr [3, 0x61, 0x62, 0x63]) = none ∧
    ¬ RoundTrip [[0x61, 0x62, 0x63]] := by
  refine ⟨by decide, by decide, by decide, fun h => ?_⟩
  obtain ⟨name, -, hencode, hdecode⟩ := h (malloc 5) (by decide) 1 (by decide)
  have henc : nameEncode 1 (malloc 5) (cstr (host [[0x61, 0x62, 0x63]]))
      = some (cstr [3, 0x61, 0x62, 0x63]) := by decide
  have hdrop : (malloc 5).drop ((host [[0x61, 0x62, 0x63]]).length + 2) = [] := by decide
  rw [henc, hdrop, List.append_nil, Option.some_inj] at hencode
  subst hencode
  obtain ⟨⟨b, hb⟩, -⟩ := hdecode []
  have hnone : nameDecode 1 none (cstr [3, 0x61, 0x62, 0x63] ++ []) = none := by decide
  rw [hnone] at hb
  cases hb

end DnsName

end CPlayground
