import CPlayground.Codec.Utf8

namespace CPlayground.Utf8

open Memory

/-!
# UTF-8: bytes that the encoder does not write

`utf8_decode` does not ask whether a code point could have had fewer bytes, and `utf8_encode` stores
its first byte before it looks for room, and has no branch for numbers of 22 bits and more.

* `firstCodePoint_injective` — two encodings of one size for one code point are the same.
* `decoding_canonical` — so what is decoded is encoded in the same way again, unless the code point
  has an encoding with fewer bytes.
* `encoding_errors` — the encoder reports numbers without an encoding only if there is no room at
  all, and never leaves the memory alone if there is not enough.
-/

variable {x u v : UInt32} {b b' : UInt8} {c : Nat} {bs bs' : List UInt8}

/-! ### The size of an encoding -/

/-- The number of bytes of a code point. -/
def size (x : UInt32) : Nat :=
  if x.toNat < 2 ^ 7 then 1 else if x.toNat < 2 ^ 11 then 2 else if x.toNat < 2 ^ 16 then 3 else 4

/-- The first number that needs `c` bytes. -/
def least : Nat → Nat
  | 2 => 2 ^ 7
  | 3 => 2 ^ 11
  | 4 => 2 ^ 16
  | _ => 1

/-- The encoder takes the smallest size. -/
theorem length_utf8_eq_size (hx : CodePoint x) : (utf8 x).length = size x := by
  have h7 := bitLength_lt hx 7
  have h11 := bitLength_lt hx 11
  have h16 := bitLength_lt hx 16
  have h21 := bitLength_lt hx 21
  have hlt := hx.2
  rw [length_utf8 hx, lead, size]
  split_ifs <;> first | rfl | omega

/-! ### Bytes for one code point -/

/-- A byte that passes the test is a first byte, of the form that the test is for. -/
theorem isLead_of_prefixTest (h : prefixTest b = some (c, u)) : IsLead b c u.toNat := by
  have h7 : b >>> 7 = 0 ↔ b.toNat / 2 ^ 7 = 0 := shiftRight_eq_iff (by decide)
  have h5 : b >>> 5 = 0x6 ↔ b.toNat / 2 ^ 5 = 6 := shiftRight_eq_iff (by decide)
  have h4 : b >>> 4 = 0xe ↔ b.toNat / 2 ^ 4 = 14 := shiftRight_eq_iff (by decide)
  have h3 : b >>> 3 = 0x1e ↔ b.toNat / 2 ^ 3 = 30 := shiftRight_eq_iff (by decide)
  unfold prefixTest at h
  simp only [h7, h5, h4, h3] at h
  split_ifs at h <;> cases h <;> simp only [IsLead]
  · rw [UInt8.toNat_toUInt32]
    omega
  · rw [toNat_and_mask (k := 5) rfl]
    omega
  · rw [toNat_and_mask (k := 4) rfl]
    omega
  · rw [toNat_and_mask (k := 3) rfl]
    omega

/-- The first byte is determined by its size and by the bits that it has. -/
theorem prefixTest_injective (h : prefixTest b = some (c, u)) (h' : prefixTest b' = some (c, u)) :
    b = b' := by
  have hlead := isLead_of_prefixTest h
  have hlead' := isLead_of_prefixTest h'
  apply UInt8.toNat_inj.mp
  match c, hlead, hlead' with
  | 0, hlead, hlead' => exact hlead.1.trans hlead'.1.symm
  | 1, hlead, hlead' => exact hlead.1.trans hlead'.1.symm
  | 2, hlead, hlead' => exact hlead.1.trans hlead'.1.symm
  | 3, hlead, hlead' => exact hlead.1.trans hlead'.1.symm

/-- A round of the decoder that goes on. -/
theorem decodeSuffixes_succ (h : decodeSuffixes (c + 1) (bs.map some) u = some (some x)) :
    ∃ b rest, bs = b :: rest ∧ b >>> 6 = 0x2 ∧
      decodeSuffixes c (rest.map some) ((u <<< 6) ||| (b &&& 0x3f).toUInt32) = some (some x) := by
  cases bs with
  | nil => cases h
  | cons b rest =>
    rw [List.map_cons, decodeSuffixes] at h
    simp only [deref, Option.bind_some, List.tail_cons] at h
    split_ifs at h with hb
    · exact ⟨b, rest, rfl, hb, h⟩
    · cases h

/-- The bits of the first byte are the first bits of the result. -/
theorem decodeSuffixes_div (hu : (u.toNat + 1) * 64 ^ c ≤ 2 ^ 21)
    (h : decodeSuffixes c (bs.map some) u = some (some x)) : x.toNat / 64 ^ c = u.toNat := by
  induction c generalizing bs u with
  | zero =>
    cases h
    exact Nat.div_one _
  | succ c ih =>
    obtain ⟨b, rest, rfl, -, hrest⟩ := decodeSuffixes_succ h
    obtain ⟨hnext, hbound⟩ := toNat_round b hu
    rw [pow_succ, ← Nat.div_div_eq_div_mul, ih hbound hrest, hnext]
    omega

/-- The loop reads the same bytes for the same result: each of them contributes six bits, which no
    other byte changes. -/
theorem decodeSuffixes_injective (hu : (u.toNat + 1) * 64 ^ c ≤ 2 ^ 21)
    (h : decodeSuffixes c (bs.map some) u = some (some x))
    (h' : decodeSuffixes c (bs'.map some) u = some (some x)) : bs.take c = bs'.take c := by
  induction c generalizing bs bs' u with
  | zero => rfl
  | succ c ih =>
    obtain ⟨b, rest, rfl, hb, hrest⟩ := decodeSuffixes_succ h
    obtain ⟨b', rest', rfl, hb', hrest'⟩ := decodeSuffixes_succ h'
    obtain ⟨hnext, hbound⟩ := toNat_round b hu
    obtain ⟨hnext', hbound'⟩ := toNat_round b' hu
    -- the two bytes have the same six bits, and the bits before them are those of the test
    have hbits : b.toNat % 64 = b'.toNat % 64 := by
      have hdiv := (decodeSuffixes_div hbound hrest).symm.trans (decodeSuffixes_div hbound' hrest')
      omega
    have heq : b = b' := by
      rw [shiftRight_eq_iff (by decide)] at hb hb'
      apply UInt8.toNat_inj.mp
      have htest : b.toNat / 64 = 2 := hb
      have htest' : b'.toNat / 64 = 2 := hb'
      omega
    subst heq
    rw [List.take_succ_cons, List.take_succ_cons, ih hbound hrest hrest']

/-- The first byte of a code point that is decoded, and the loop for the others. -/
theorem exists_of_firstCodePoint (h : firstCodePoint bs = some (c, x)) :
    ∃ b rest k v, bs = b :: rest ∧ c = k + 1 ∧ prefixTest b = some (k, v) ∧
      decodeSuffixes k (rest.map some) v = some (some x) := by
  cases bs with
  | nil => cases h
  | cons b rest =>
    have hdecode := utf8Decode_eq (List.cons_ne_nil b rest) []
    rw [h, List.append_nil, List.map_cons, utf8Decode] at hdecode
    simp only [deref, Option.bind_some] at hdecode
    split at hdecode
    · cases hdecode
    · next k v htest =>
      split_ifs at hdecode
      · cases hdecode
      · obtain ⟨r, hr, hpair⟩ := Option.map_eq_some_iff.mp hdecode
        obtain ⟨y, rfl, hy⟩ := Option.map_eq_some_iff.mp hpair
        cases hy
        exact ⟨b, rest, k, v, rfl, rfl, htest, hr⟩

/-- **Encodings of one size**: the bytes of a code point are those of any other encoding of it that
    has as many bytes. -/
theorem firstCodePoint_injective (h : firstCodePoint bs = some (c, x))
    (h' : firstCodePoint bs' = some (c, x)) : bs.take c = bs'.take c := by
  obtain ⟨b, rest, k, v, rfl, rfl, htest, hloop⟩ := exists_of_firstCodePoint h
  obtain ⟨b', rest', k', v', rfl, hk, htest', hloop'⟩ := exists_of_firstCodePoint h'
  cases Nat.add_right_cancel hk
  have hbound := (prefixTest_bound htest).2
  have hv : v = v' := by
    apply UInt32.toNat_inj.mp
    exact (decodeSuffixes_div hbound hloop).symm.trans
      (decodeSuffixes_div (prefixTest_bound htest').2 hloop')
  subst hv
  rw [List.take_succ_cons, List.take_succ_cons, prefixTest_injective htest htest',
    decodeSuffixes_injective hbound hloop hloop']

/-- A code point that is decoded from `c` bytes has an encoding of at most `c` bytes. -/
theorem size_eq_iff (h : firstCodePoint bs = some (c, x)) (hx : x ≠ 0) :
    size x = c ↔ least c ≤ x.toNat := by
  obtain ⟨b, rest, k, v, rfl, rfl, htest, hloop⟩ := exists_of_firstCodePoint h
  have hdiv := decodeSuffixes_div (prefixTest_bound htest).2 hloop
  have hpos : 0 < x.toNat := Nat.pos_of_ne_zero fun h0 => hx (UInt32.toNat_inj.mp h0)
  have hlead := isLead_of_prefixTest htest
  match k, hlead, hdiv with
  | 0, ⟨_, hv⟩, hdiv =>
    show size x = 1 ↔ 1 ≤ x.toNat
    unfold size
    split_ifs <;> omega
  | 1, ⟨_, hv⟩, hdiv =>
    show size x = 2 ↔ 2 ^ 7 ≤ x.toNat
    unfold size
    split_ifs <;> omega
  | 2, ⟨_, hv⟩, hdiv =>
    show size x = 3 ↔ 2 ^ 11 ≤ x.toNat
    unfold size
    split_ifs <;> omega
  | 3, ⟨_, hv⟩, hdiv =>
    show size x = 4 ↔ 2 ^ 16 ≤ x.toNat
    unfold size
    split_ifs <;> omega

/-! ### Decoding and encoding again -/

/-- `utf8_encode(u)` returns `c` and writes the first `c` of the bytes, wherever there is room. -/
def Canonical (bs : List UInt8) (c : Nat) (u : UInt32) : Prop :=
  ∀ (m : Mem) (p e : Nat), p + c ≤ e → e ≤ m.length →
    utf8Encode m p e u = some (c, m.take p ++ ((bs.take c).map some ++ m.drop (p + c)))

/-- The encoder, in a block of memory. -/
theorem utf8Encode_room (hx : CodePoint x) {m : Mem} {p e : Nat} (he : p + size x ≤ e)
    (hm : p + size x ≤ m.length) :
    utf8Encode m p e x = some (size x, m.take p ++ ((utf8 x).map some ++ m.drop (p + size x))) := by
  have hlen := length_utf8_eq_size hx
  have hsplit : m = m.take p ++ ((m.drop p).take (size x) ++ m.drop (p + size x)) := by
    rw [← List.drop_drop, List.take_append_drop, List.take_append_drop]
  have hp : (m.take p).length = p := List.length_take_of_le (by omega)
  have hmid : ((m.drop p).take (size x)).length = (utf8 x).length := by
    rw [hlen, List.length_take_of_le]
    rw [List.length_drop]
    omega
  have h : utf8Encode (m.take p ++ ((m.drop p).take (size x) ++ m.drop (p + size x)))
      (m.take p).length e x = _ := utf8Encode_eq hx hmid (by omega)
  rwa [← hsplit, hp, hlen] at h

/-- **Decoding is canonical** for the code points that have no encoding with fewer bytes. -/
theorem decoding_canonical (extra : Mem)
    (h : utf8Decode (bs.map some ++ extra) bs.length = some (some (c, u))) (hu : u ≠ 0) :
    Canonical bs c u ↔ least c ≤ u.toNat := by
  have hbs : bs ≠ [] := by
    rintro rfl
    rw [List.length_nil, utf8Decode, Option.bind_eq_some_iff] at h
    obtain ⟨b, -, hb⟩ := h
    split at hb
    · cases hb
    · rw [if_pos (Nat.zero_le _)] at hb
      cases hb
  have hfirst : firstCodePoint bs = some (c, u) :=
    Option.some_inj.mp ((utf8Decode_eq hbs extra).symm.trans h)
  have hbounds := firstCodePoint_bounds hfirst
  have hcode : CodePoint u :=
    ⟨Nat.pos_of_ne_zero fun h0 => hu (UInt32.toNat_inj.mp h0), hbounds.2.2.2⟩
  rw [← size_eq_iff hfirst hu]
  constructor
  · intro hcanonical
    have hlen : (malloc (size u + c)).length = size u + c := List.length_replicate
    have hencode := utf8Encode_room hcode (m := malloc (size u + c)) (p := 0) (e := size u + c)
      (by omega) (by omega)
    have hpair := hencode.symm.trans (hcanonical _ _ _ (by omega) hlen.ge)
    exact (Prod.mk.inj (Option.some.inj hpair)).1
  · rintro rfl m p e hpe he
    have hutf8 := firstCodePoint_utf8 hcode []
    rw [List.append_nil, length_utf8_eq_size hcode] at hutf8
    have hbytes := firstCodePoint_injective hfirst hutf8
    rw [utf8Encode_room hcode hpe (hpe.trans he), hbytes, ← length_utf8_eq_size hcode,
      List.take_length]

/-- The three bytes of a code point of the table. -/
theorem decoding_canonical_three : Canonical [0xe4, 0xb8, 0xa5] 3 0x4e25 :=
  (decoding_canonical [] (by decide) (by decide)).mpr (by decide)

/-- The letter `A` in two bytes and in four: the encoder writes one. -/
theorem decoding_canonical_overlong :
    utf8Decode [some 0xc1, some 0x81] 2 = some (some (2, 0x41)) ∧
    utf8Encode (malloc 4) 0 4 0x41 = some (1, [some 0x41, none, none, none]) ∧
    utf8Decode [some 0xf0, some 0x80, some 0x81, some 0x81] 4 = some (some (4, 0x41)) := by
  decide

/-! ### Numbers without an encoding, and no room -/

/-- What the result of `utf8_encode` is for: the number of bytes, which are then there and are
    decoded again, or 0, and then nothing is written. -/
def ReportsErrors (x : UInt32) (room : Nat) : Prop :=
  ∀ (m : Mem) (p : Nat), p + room ≤ m.length →
    if x.toNat < 2 ^ 21 ∧ size x ≤ room then
      ∃ bytes : List UInt8, bytes.length = size x ∧
        utf8Encode m p (p + room) x
          = some (size x, m.take p ++ (bytes.map some ++ m.drop (p + size x))) ∧
        ∀ rest, utf8Decode (bytes.map some ++ rest) (size x) = some (some (size x, x))
    else utf8Encode m p (p + room) x = some (0, m)

/-- There is no branch for a number of 22 bits and more. -/
theorem lead_of_large (hx : 2 ^ 21 ≤ x.toNat) : lead x = (0, none) := by
  have hlog : 21 ≤ x.toNat.log2 := (Nat.le_log2 (by omega)).mpr hx
  unfold lead bitLength
  rw [if_neg (by omega), if_neg (by omega), if_neg (by omega), if_neg (by omega)]

/-- A number without an encoding: the result is 1 as soon as there is room for a byte. -/
theorem utf8Encode_of_large (hx : 2 ^ 21 ≤ x.toNat) (m : Mem) (p e : Nat) :
    utf8Encode m p e x = some (if p ≥ e then 0 else 1, m) := by
  have hne : x ≠ 0 := by
    rintro rfl
    exact absurd hx (by decide)
  rw [utf8Encode, if_neg hne, lead_of_large hx]
  simp only [Option.toList_none, store, Option.bind_some, Nat.add_zero, suffixes]
  split <;> rfl

/-- Without room for a code point, its first byte is written if there is a byte for it. -/
theorem utf8Encode_of_no_room (hx : CodePoint x) {room : Nat} (hroom : room < size x) :
    utf8Encode (malloc room) 0 room x ≠ some (0, malloc room) := by
  obtain ⟨b, -, -, hb, -⟩ := utf8_eq hx
  have hlen := (length_utf8 hx).symm.trans (length_utf8_eq_size hx)
  have hne : x ≠ 0 := by
    rintro rfl
    exact absurd hx.1 (by decide)
  rw [utf8Encode, if_neg hne, hb, Option.toList_some, store_malloc, List.length_singleton]
  split
  · next hpos =>
    obtain ⟨room, rfl⟩ : ∃ k, room = k + 1 := ⟨room - 1, by omega⟩
    rw [Option.bind_some, if_pos (by omega), malloc, List.replicate_succ]
    simp
  · simp

/-- **Errors of the encoder** are reported, with nothing written, only for numbers of 22 bits and
    more, and only if there is no room at all. -/
theorem encoding_errors (hx : x ≠ 0) (room : Nat) :
    ReportsErrors x room ↔
      (x.toNat < 2 ^ 21 ∧ size x ≤ room) ∨ (2 ^ 21 ≤ x.toNat ∧ room = 0) := by
  have hpos : 1 ≤ x.toNat := Nat.pos_of_ne_zero fun h0 => hx (UInt32.toNat_inj.mp h0)
  by_cases hfits : x.toNat < 2 ^ 21 ∧ size x ≤ room
  · refine iff_of_true (fun m p hm => ?_) (.inl hfits)
    have hcode : CodePoint x := ⟨hpos, hfits.1⟩
    have hlen := length_utf8_eq_size hcode
    rw [if_pos hfits]
    refine ⟨utf8 x, hlen, utf8Encode_room hcode (by omega) (by omega), fun rest => ?_⟩
    rw [utf8Decode_utf8 hcode hlen.le, hlen]
  · have hmalloc : 0 + room ≤ (malloc room).length := by simp [malloc]
    by_cases hlarge : 2 ^ 21 ≤ x.toNat
    · -- the result is 0 only if there is no room
      have herrors : ReportsErrors x room ↔ room = 0 := by
        constructor
        · intro h
          have hencode := h (malloc room) 0 hmalloc
          rw [if_neg hfits, utf8Encode_of_large hlarge] at hencode
          by_contra hne
          rw [if_neg (by omega)] at hencode
          cases hencode
        · rintro rfl m p -
          rw [if_neg hfits, utf8Encode_of_large hlarge, if_pos (by omega)]
      rw [herrors]
      omega
    · have hcode : CodePoint x := ⟨hpos, by omega⟩
      have hroom : room < size x := by omega
      refine iff_of_false (fun h => ?_) (by omega)
      have hencode := h (malloc room) 0 hmalloc
      rw [if_neg hfits, Nat.zero_add] at hencode
      exact utf8Encode_of_no_room hcode hroom hencode

/-- Two bytes where there is room for two. -/
theorem encoding_errors_fits : ReportsErrors 0xa2 2 :=
  (encoding_errors (by decide) 2).mpr (by decide)

/-- A number of 22 bits, room for one byte of two, and no room: the result of the first call is 1
    with nothing written, the second one has written a byte, and the third one writes outside. -/
theorem encoding_errors_missed :
    utf8Encode (malloc 4) 0 4 0x200000 = some (1, malloc 4) ∧
    utf8Encode (malloc 1) 0 1 0xa2 = some (0, [some 0xc2]) ∧
    utf8Encode (malloc 0) 0 0 0xa2 = none := by
  decide

end CPlayground.Utf8
