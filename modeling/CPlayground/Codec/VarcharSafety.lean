import CPlayground.Codec.ClipVarchar

namespace CPlayground.ClipVarchar

open Bytes

/-!
# `VARCHAR` columns of any bytes

The length of a value is taken from the reader as it stands there, and two bytes more are copied.
`memcpy` has no defined result for a negative number of bytes or for more than there is at either
pointer, so the copy functions have a result exactly if they stay inside their memory.

* `safe_byteReaderRead` — which numbers of bytes can be read.
* `safe_notnull`, `safe_nullable`, `safe_general` — the three functions.
* `varchar_safety` — together, for a column with as much memory as its declared length asks for.
-/

/-! ### `copy_column_varchar_general` -/

/-- `struct desc` with the `type`. -/
structure TypedDesc extends Desc where
  type : Int

/-- The type of the columns with a length before the value. -/
def SQLTYPECODE_VARCHAR_WITH_LENGTH : Int := -601

/-- `(l + (k - 1)) & ~(k - 1)`, for a power of two `k`. -/
def roundUp (l k : Int) : Int := l + (k - 1) - (l + (k - 1)) % k

/-- The number of bytes that `copy_column_varchar_general` asks for, if the sums do not overflow. -/
def generalLength (desc : TypedDesc) : Option Int :=
  if desc.type = SQLTYPECODE_VARCHAR_WITH_LENGTH then
    if desc.len > 0x7fff then
      if desc.len + 3 < 2 ^ 31 ∧ roundUp desc.len 4 + 4 < 2 ^ 31 then some (roundUp desc.len 4 + 4)
      else none
    else some (roundUp desc.len 2 + 2)
  else some desc.len

/-- The null indicator, which is read if there is memory for it. -/
def readNull (r : ByteReader) : Option (List UInt8) → Option (ByteReader × Option (List UInt8))
  | some null => (byteReaderRead r null 2).map fun q => (q.1, some q.2)
  | none      => some (r, none)

/-- `copy_column_varchar_general`. -/
def copyColumnVarcharGeneral (r : ByteReader) (desc : TypedDesc) :
    Option (ByteReader × TypedDesc) :=
  (readNull r desc.null).bind fun q =>
    (generalLength desc).bind fun l =>
      (byteReaderRead q.1 desc.data l).map fun p => (p.1, { desc with null := q.2, data := p.2 })

/-! ### Copies that stay inside -/

/-- All copies of a call are defined, and the reader has moved forward at most, up to its end. -/
def Safe {δ : Type} (r : ByteReader) (result : Option (ByteReader × δ)) : Prop :=
  ∃ r' desc', result = some (r', desc') ∧ r'.data <:+ r.data

/-- The memory of a column: a prefix, and the declared length rounded up. -/
def room (len : Int) : Nat :=
  (if len > 0x7fff then roundUp len 4 + 4 else roundUp len 2 + 2).toNat

/-- The length at the reader, or 0 if that is not there. -/
def peekedLength (r : ByteReader) (len : Int) : Int :=
  if len > 0x7fff then (ofInt32 (peeked r 4)).toInt else (ofInt16 (peeked r 2)).toInt

/-- The two bytes and the length are more than there are in the reader, or fit the column. -/
def SafeLength (r : ByteReader) (len : Int) : Prop :=
  peekedLength r len + 2 < 2 ^ 31 ∧
    (peekedLength r len + 2 > r.data.length ∨
      0 ≤ peekedLength r len + 2 ∧ peekedLength r len + 2 ≤ room len)

instance (r : ByteReader) (len : Int) : Decidable (SafeLength r len) :=
  inferInstanceAs (Decidable (_ ∧ _))

/-- The reader behind the null indicator. -/
def behindNull (r : ByteReader) : ByteReader := if r.data.length < 2 then r else ⟨r.data.drop 2⟩

/-- The declared lengths for which `copy_column_varchar_general` asks for a number of bytes. -/
def SafeDeclared (desc : TypedDesc) : Prop :=
  if desc.type = SQLTYPECODE_VARCHAR_WITH_LENGTH then -3 ≤ desc.len ∧ desc.len < 2 ^ 31 - 7
  else 0 ≤ desc.len

instance (desc : TypedDesc) : Decidable (SafeDeclared desc) :=
  inferInstanceAs (Decidable (if desc.type = _ then _ else _))

variable {r r' : ByteReader} {desc desc' : Desc} {dest dest' : List UInt8} {n : Int} {δ : Type}
  {result : Option (ByteReader × δ)}

/-- A function without a result is not safe. -/
theorem not_safe_none : ¬ Safe r (none : Option (ByteReader × δ)) := by
  rintro ⟨r', desc', h, -⟩
  cases h

/-- A read leaves an end of what the reader had. -/
theorem suffix_byteReaderRead (h : byteReaderRead r dest n = some (r', dest')) :
    r'.data <:+ r.data := by
  rcases byteReaderRead_eq_some h with ⟨rfl, -⟩ | ⟨k, -, -, -, rfl, -⟩
  · exact List.suffix_refl _
  · exact List.drop_suffix _ _

/-- **Reading** `n` bytes is safe if they are not there, as nothing is read then, or if `n` is not
    negative and they fit into the memory. -/
theorem safe_byteReaderRead {f : ByteReader × List UInt8 → ByteReader × δ}
    (hf : ∀ q, (f q).1 = q.1) :
    Safe r ((byteReaderRead r dest n).map f) ↔
      n > r.data.length ∨ 0 ≤ n ∧ n ≤ dest.length := by
  have hdata : ∀ q, (f q).1.data = q.1.data := fun q => congrArg ByteReader.data (hf q)
  rw [byteReaderRead_eq]
  split_ifs with hlong hcopy
  · exact iff_of_true ⟨_, _, rfl, (hdata _).symm ▸ List.suffix_refl _⟩ (.inl hlong)
  · exact iff_of_true ⟨_, _, rfl, (hdata _).symm ▸ List.drop_suffix _ _⟩ (.inr hcopy)
  · exact iff_of_false not_safe_none (by omega)

/-- A call with a part of the reader. -/
theorem safe_of_suffix (h : r'.data <:+ r.data)
    (hresult : ∀ r'' desc', result = some (r'', desc') → r''.data <:+ r'.data) :
    Safe r result ↔ Safe r' result := by
  constructor
  · rintro ⟨r'', desc', heq, -⟩
    exact ⟨r'', desc', heq, hresult r'' desc' heq⟩
  · rintro ⟨r'', desc', heq, hsuffix⟩
    exact ⟨r'', desc', heq, hsuffix.trans h⟩

/-! ### The three functions -/

/-- **A value that cannot be null** is copied safely exactly if its length is safe. -/
theorem safe_notnull (hdata : desc.data.length = room desc.len) :
    Safe r (copyColumnVarcharNotnull r desc) ↔ SafeLength r desc.len := by
  unfold copyColumnVarcharNotnull SafeLength peekedLength
  by_cases hlong : desc.len > 0x7fff
  · obtain ⟨code, hpeak⟩ := byteReaderPeak_zero r (k := 4) (n := 4) rfl
    simp only [if_pos hlong, hpeak, Option.bind_some]
    split_ifs with hsum
    · rw [safe_byteReaderRead, hdata]
      · omega
      · exact fun _ => rfl
    · exact iff_of_false not_safe_none fun h => hsum h.1
  · obtain ⟨code, hpeak⟩ := byteReaderPeak_zero r (k := 2) (n := 2) rfl
    simp only [if_neg hlong, hpeak, Option.bind_some]
    have hlt := Int16.toInt_lt (ofInt16 (peeked r 2))
    rw [safe_byteReaderRead, hdata]
    · omega
    · exact fun _ => rfl

/-- The copy of a value leaves an end of what the reader had. -/
theorem suffix_notnull (h : copyColumnVarcharNotnull r desc = some (r', desc')) :
    r'.data <:+ r.data := by
  obtain ⟨⟨r₁, data⟩, hread, heq⟩ := Option.map_eq_some_iff.mp h
  cases heq
  split_ifs at hread
  · obtain ⟨p, -, hp⟩ := Option.bind_eq_some_iff.mp hread
    dsimp only at hp
    split_ifs at hp
    exact suffix_byteReaderRead hp
  · obtain ⟨p, -, hp⟩ := Option.bind_eq_some_iff.mp hread
    exact suffix_byteReaderRead hp

/-- Reading the null indicator. -/
theorem byteReaderRead_null {null : List UInt8} (hnull : null.length = 2 ∨ r.data.length < 2) :
    ∃ null', byteReaderRead r null 2 = some (behindNull r, null') := by
  rw [byteReaderRead_eq, behindNull]
  by_cases hshort : r.data.length < 2
  · rw [if_pos (by omega), if_pos hshort]
    exact ⟨_, rfl⟩
  · rw [if_neg (by omega), if_pos (by omega), if_neg hshort]
    exact ⟨_, rfl⟩

/-- So does the read of the indicator. -/
theorem suffix_behindNull (r : ByteReader) : (behindNull r).data <:+ r.data := by
  rw [behindNull]
  split_ifs
  · exact List.suffix_refl _
  · exact List.drop_suffix _ _

/-- **A value that may be null** needs memory for its indicator, if the reader has one, and a safe
    length unless it is null. -/
theorem safe_nullable (hdata : desc.data.length = room desc.len)
    (hnull : ∀ null ∈ desc.null, null.length = 2) :
    Safe r (copyColumnVarcharNullable r desc) ↔
      (2 ≤ r.data.length → desc.null.isSome) ∧
        (ofInt16 (peeked r 2) = -1 ∨ SafeLength (behindNull r) desc.len) := by
  obtain ⟨code, hpeak⟩ := byteReaderPeak_zero r (k := 2) (n := 2) rfl
  unfold copyColumnVarcharNullable
  rw [hpeak, Option.bind_some]
  by_cases hstored : 2 ≤ r.data.length → desc.null.isSome
  · obtain ⟨null', hread⟩ : ∃ null', byteReaderRead r (desc.null.getD []) 2
        = some (behindNull r, null') := by
      apply byteReaderRead_null
      by_cases hshort : r.data.length < 2
      · exact .inr hshort
      · obtain ⟨null, hsome⟩ := Option.isSome_iff_exists.mp (hstored (by omega))
        rw [hsome]
        exact .inl (hnull null hsome)
    rw [hread, Option.bind_some, and_iff_right hstored]
    dsimp only
    split_ifs with hvalue
    · rw [safe_of_suffix (suffix_behindNull r) fun _ _ h => suffix_notnull h, or_iff_right hvalue]
      exact safe_notnull hdata
    · rw [not_not] at hvalue
      exact iff_of_true ⟨_, _, rfl, suffix_behindNull r⟩ (.inl hvalue)
  · -- two bytes are to be stored where there is no memory
    have hread : byteReaderRead r (desc.null.getD []) 2 = none := by
      rw [Classical.not_imp, Option.not_isSome_iff_eq_none] at hstored
      rw [hstored.2, byteReaderRead_eq, if_neg (by omega), if_neg (by simp)]
    rw [hread]
    exact iff_of_false not_safe_none fun h => hstored h.1

/-- A declared length is safe exactly if the number of the bytes is not negative. -/
theorem safeDeclared_iff (desc : TypedDesc) :
    SafeDeclared desc ↔ ∃ l, generalLength desc = some l ∧ 0 ≤ l := by
  unfold SafeDeclared generalLength roundUp
  split_ifs with htype hlong hsum
  · simp only [Option.some.injEq, exists_eq_left']
    omega
  · -- a sum overflows
    refine iff_of_false (by omega) ?_
    rintro ⟨l, h, -⟩
    cases h
  · simp only [Option.some.injEq, exists_eq_left']
    omega
  · simp only [Option.some.injEq, exists_eq_left']

/-- There is room for the bytes. -/
theorem le_room {desc : TypedDesc} {l : Int} (h : generalLength desc = some l) :
    l ≤ room desc.len := by
  unfold generalLength at h
  unfold room
  split_ifs at h ⊢ with htype hlong hsum
  all_goals
    cases h
    unfold roundUp
    omega

/-- The null indicator is skipped if there is memory for it. -/
theorem readNull_eq {null : Option (List UInt8)} (hnull : ∀ n ∈ null, n.length = 2) :
    ∃ r' null', readNull r null = some (r', null') ∧ r'.data <:+ r.data := by
  cases null with
  | none => exact ⟨r, none, rfl, List.suffix_refl _⟩
  | some null =>
    obtain ⟨null', hread⟩ := byteReaderRead_null (.inl (hnull null rfl))
    exact ⟨_, some null', by rw [readNull, hread]; rfl, suffix_behindNull r⟩

/-- **The general function** depends on the declared length only: it copies as many bytes as
    `generalLength` makes of it, whatever the row has. -/
theorem safe_general {desc : TypedDesc} (hdata : desc.data.length = room desc.len)
    (hnull : ∀ null ∈ desc.null, null.length = 2) :
    Safe r (copyColumnVarcharGeneral r desc) ↔ SafeDeclared desc := by
  obtain ⟨r', null', hread, hsuffix⟩ := readNull_eq (r := r) hnull
  unfold copyColumnVarcharGeneral
  rw [hread, Option.bind_some, safeDeclared_iff]
  cases hlength : generalLength desc with
  | none => exact iff_of_false not_safe_none (by simp)
  | some l =>
    have hle := le_room hlength
    rw [Option.bind_some, safe_of_suffix hsuffix, safe_byteReaderRead, hdata]
    · simp only [Option.some.injEq, exists_eq_left']
      omega
    · exact fun _ => rfl
    · rintro r'' desc' h
      obtain ⟨p, hp, heq⟩ := Option.map_eq_some_iff.mp h
      cases heq
      exact suffix_byteReaderRead hp

/-- **Columns of any bytes.**  The three functions stay inside the bytes of the reader and the
    memory of the column exactly if the length at the reader fits the column or is longer than what
    is left, the null indicator has memory to be stored in, and the declared length gives a number
    of bytes. -/
theorem varchar_safety (r : ByteReader) (desc : TypedDesc)
    (hdata : desc.data.length = room desc.len) (hnull : ∀ null ∈ desc.null, null.length = 2) :
    (Safe r (copyColumnVarcharNotnull r desc.toDesc) ↔ SafeLength r desc.len) ∧
    (Safe r (copyColumnVarcharNullable r desc.toDesc) ↔
      (2 ≤ r.data.length → desc.null.isSome) ∧
        (ofInt16 (peeked r 2) = -1 ∨ SafeLength (behindNull r) desc.len)) ∧
    (Safe r (copyColumnVarcharGeneral r desc) ↔ SafeDeclared desc) :=
  ⟨safe_notnull hdata, safe_nullable hdata hnull, safe_general hdata hnull⟩

/-- A value of three bytes in a column of four. -/
theorem varchar_safety_short : ∃ desc : TypedDesc, desc.len = 4 ∧ desc.data.length = 6 ∧
    Safe ⟨[0, 0, 3, 0, 7, 8, 9]⟩ (copyColumnVarcharNullable ⟨[0, 0, 3, 0, 7, 8, 9]⟩ desc.toDesc) ∧
    Safe ⟨[0, 0, 3, 0, 7, 8, 9]⟩ (copyColumnVarcharGeneral ⟨[0, 0, 3, 0, 7, 8, 9]⟩ desc) := by
  have h := varchar_safety ⟨[0, 0, 3, 0, 7, 8, 9]⟩
    { data := [0, 0, 0, 0, 0, 0], null := some [0, 0], len := 4, type := -601 } (by decide)
    (by decide)
  exact ⟨_, rfl, rfl, h.2.1.mpr (by decide), h.2.2.mpr (by decide)⟩

/-- A length of -3 asks for -1 bytes, and a length of six for more than a column of four has; the
    declared length -4 of a column asks for -2 bytes. -/
theorem varchar_safety_violated :
    (ofInt16 [0xfd, 0xff]).toInt + 2 = -1 ∧
    copyColumnVarcharNotnull ⟨[0xfd, 0xff]⟩ ⟨[0, 0, 0, 0, 0, 0], none, 4⟩ = none ∧
    (ofInt16 [6, 0]).toInt + 2 = 8 ∧
    copyColumnVarcharNotnull ⟨[6, 0, 1, 2, 3, 4, 5, 6]⟩ ⟨[0, 0, 0, 0, 0, 0], none, 4⟩ = none ∧
    generalLength ⟨⟨[], none, -4⟩, -601⟩ = some (-2) ∧
    copyColumnVarcharGeneral ⟨[1]⟩ ⟨⟨[], none, -4⟩, -601⟩ = none :=
  ⟨by decide, rfl, by decide, rfl, by decide, rfl⟩

end CPlayground.ClipVarchar
