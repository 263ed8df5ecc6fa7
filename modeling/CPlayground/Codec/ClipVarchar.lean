import CPlayground.Lib.Bytes

namespace CPlayground

open Bytes

/-!
# Clipped rows of `VARCHAR` columns

A row is read column by column with a `byte_reader` over its bytes.  A column that may be null has
an indicator of two bytes, and a value has its length before it: two bytes if the declared length is
at most `0x7fff`, four bytes otherwise.

Both branches of `copy_column_varchar_notnull` copy two bytes more than the length says, so the last
two bytes of a value with a long length are left behind.

* `ClipVarchar.copyColumn_short` — any other column is copied, and the reader is behind it.
* `ClipVarchar.length_copyColumn` — a column whose copy is right takes at most its own bytes from
  the reader, and fewer if it has a value with a long length.
* `clipped_rows` — so a row is copied and read to its end exactly if it has no such value.
-/

namespace ClipVarchar

/-- `memcpy`, which is undefined outside of the memory at `dest` or `src`. -/
def memcpy (dest src : List UInt8) (n : Int) : Option (List UInt8) :=
  if 0 ≤ n ∧ n ≤ dest.length ∧ n ≤ src.length then
    some (src.take n.toNat ++ dest.drop n.toNat)
  else none

/-- `struct byte_reader`: the bytes from `data` to `end`. -/
structure ByteReader where
  data : List UInt8

/-- `struct desc`: the memory at `data` and, for a column that may be null, at `null`. -/
structure Desc where
  data : List UInt8
  null : Option (List UInt8)
  len : Int

/-- `byte_reader_peak`: the result and the memory at `dest`. -/
def byteReaderPeak (r : ByteReader) (dest : List UInt8) (n : Int) : Option (Int × List UInt8) :=
  if n > r.data.length then some (-1, dest)
  else (memcpy dest r.data n).map fun dest => (0, dest)

/-- `byte_reader_read`, of which only the effect is used. -/
def byteReaderRead (r : ByteReader) (dest : List UInt8) (n : Int) :
    Option (ByteReader × List UInt8) :=
  (byteReaderPeak r dest n).map fun p =>
    if p.1 = 0 then (⟨r.data.drop n.toNat⟩, p.2) else (r, p.2)

/-- `copy_column_varchar_notnull`.  The sum of `l` and 2 must not overflow. -/
def copyColumnVarcharNotnull (r : ByteReader) (desc : Desc) : Option (ByteReader × Desc) :=
  (if desc.len > 0x7fff then
    (byteReaderPeak r (encode 4 0) 4).bind fun p =>
      let l := (ofInt32 p.2).toInt
      if l + 2 < 2 ^ 31 then byteReaderRead r desc.data (l + 2) else none
  else
    (byteReaderPeak r (encode 2 0) 2).bind fun p =>
      let l := (ofInt16 p.2).toInt
      byteReaderRead r desc.data (l + 2)).map fun q => (q.1, { desc with data := q.2 })

/-- `copy_column_varchar_nullable`.  There is no memory at a null pointer. -/
def copyColumnVarcharNullable (r : ByteReader) (desc : Desc) : Option (ByteReader × Desc) :=
  (byteReaderPeak r (encode 2 0) 2).bind fun p =>
    (byteReaderRead r (desc.null.getD []) 2).bind fun q =>
      let desc := { desc with null := desc.null.map fun _ => q.2 }
      if ofInt16 p.2 ≠ -1 then copyColumnVarcharNotnull q.1 desc else some (q.1, desc)

/-- The function for a column. -/
def copyColumn (r : ByteReader) (desc : Desc) : Option (ByteReader × Desc) :=
  if desc.null.isSome then copyColumnVarcharNullable r desc else copyColumnVarcharNotnull r desc

/-- The columns of a row, one after another. -/
def copyRow (r : ByteReader) : List Desc → Option (ByteReader × List Desc)
  | []            => some (r, [])
  | desc :: descs =>
    (copyColumn r desc).bind fun p => (copyRow p.1 descs).map fun q => (q.1, p.2 :: q.2)

/-! ### Serialised values -/

/-- A value of a column.  The indicator of one that is not null is not written where the column
    cannot be null. -/
inductive Cell where
  | null
  | value (indicator : Int16) (bytes : List UInt8)
  deriving DecidableEq

/-- The size of the length of a value. -/
def prefixSize (desc : Desc) : Nat := if desc.len ≤ 0x7fff then 2 else 4

/-- A value with its length. -/
def body (desc : Desc) (bytes : List UInt8) : List UInt8 :=
  encode (prefixSize desc) bytes.length ++ bytes

/-- The null indicator of a value. -/
def indicator : Cell → Int16
  | .null      => -1
  | .value i _ => i

/-- The bytes of a value in a row. -/
def serialise (desc : Desc) (cell : Cell) : List UInt8 :=
  (if desc.null.isSome then int16 (indicator cell) else []) ++
    match cell with
    | .null          => []
    | .value _ bytes => body desc bytes

/-- A column with its value: the indicator, the length and the data are copied, and all other bytes
    are as before. -/
def stored (desc : Desc) (cell : Cell) : Desc :=
  { desc with
    null := desc.null.map fun _ => int16 (indicator cell)
    data := match cell with
      | .null          => desc.data
      | .value _ bytes => body desc bytes ++ desc.data.drop (body desc bytes).length }

/-- A column and a value that it can hold: the declared length is an `int` and not zero, the memory
    has room for a value of this length, and a null value needs an indicator. -/
structure Fits (desc : Desc) (cell : Cell) : Prop where
  len : 0 < desc.len ∧ desc.len < 2 ^ 31
  room : prefixSize desc + desc.len ≤ desc.data.length
  null : ∀ null ∈ desc.null, null.length = 2
  cell : match cell with
    | .null          => desc.null.isSome
    | .value i bytes => bytes.length ≤ desc.len ∧ (desc.null.isSome → i ≠ -1)

/-- A value with a long length. -/
def IsLong (desc : Desc) (cell : Cell) : Prop := 0x7fff < desc.len ∧ cell ≠ .null

variable {r r' : ByteReader} {desc desc' : Desc} {cell : Cell}

/-! ### The reader -/

/-- The next `k` bytes, or 0 if there is not enough in the reader. -/
def peeked (r : ByteReader) (k : Nat) : List UInt8 :=
  if k ≤ r.data.length then r.data.take k else encode k 0

/-- A peek into a target of zeros. -/
theorem byteReaderPeak_zero (r : ByteReader) {k : Nat} {n : Int} (hn : n = k) :
    ∃ code, byteReaderPeak r (encode k 0) n = some (code, peeked r k) := by
  subst hn
  unfold byteReaderPeak memcpy peeked
  split_ifs with hlong hcopy hle <;> simp at *
  all_goals omega

/-- It sees the first bytes. -/
theorem peeked_append {k : Nat} {a : List UInt8} (ha : a.length = k) (rest : List UInt8) :
    peeked ⟨a ++ rest⟩ k = a := by
  subst ha
  unfold peeked
  rw [if_pos (by simp), List.take_left]

/-- A read of more bytes than there are does nothing, and one of fewer needs room for them. -/
theorem byteReaderRead_eq (r : ByteReader) (dest : List UInt8) (n : Int) :
    byteReaderRead r dest n =
      if n > r.data.length then some (r, dest)
      else if 0 ≤ n ∧ n ≤ dest.length then
        some (⟨r.data.drop n.toNat⟩, r.data.take n.toNat ++ dest.drop n.toNat)
      else none := by
  unfold byteReaderRead byteReaderPeak memcpy
  split_ifs with hlong hcopy hin hin
  · rfl
  · rfl
  · omega
  · omega
  · rfl

/-- A read takes the first bytes and leaves the reader behind them. -/
theorem byteReaderRead_append {a rest dest : List UInt8} (h : a.length ≤ dest.length) :
    byteReaderRead ⟨a ++ rest⟩ dest a.length = some (⟨rest⟩, a ++ dest.drop a.length) := by
  rw [byteReaderRead_eq, if_neg (by simp), if_pos (by simp [h])]
  simp

/-- Reading does nothing, or takes `n` bytes from the reader. -/
theorem byteReaderRead_eq_some {dest dest' : List UInt8} {n : Int}
    (h : byteReaderRead r dest n = some (r', dest')) :
    (r' = r ∧ dest' = dest) ∨
      ∃ k : Nat, n = k ∧ k ≤ r.data.length ∧ k ≤ dest.length ∧
        r' = ⟨r.data.drop k⟩ ∧ dest' = r.data.take k ++ dest.drop k := by
  rw [byteReaderRead_eq] at h
  split_ifs at h with hlong hcopy
  · left
    cases h
    exact ⟨rfl, rfl⟩
  · right
    cases h
    exact ⟨n.toNat, by omega, by omega, by omega, rfl, rfl⟩

/-! ### Columns that are copied -/

/-- A value has its length before it. -/
theorem length_body (desc : Desc) (bytes : List UInt8) :
    (body desc bytes).length = prefixSize desc + bytes.length := by
  rw [body, List.length_append, length_encode]

/-- **A value with a short length** is copied as a whole: the two bytes more are those of the length
    itself, and the reader stands behind the value. -/
theorem copyColumnVarcharNotnull_short (hlen : desc.len ≤ 0x7fff)
    (hroom : prefixSize desc + desc.len ≤ desc.data.length) {bytes : List UInt8}
    (hbytes : bytes.length ≤ desc.len) (rest : List UInt8) :
    copyColumnVarcharNotnull ⟨body desc bytes ++ rest⟩ desc =
      some (⟨rest⟩, { desc with
        data := body desc bytes ++ desc.data.drop (body desc bytes).length }) := by
  have hsize : prefixSize desc = 2 := if_pos hlen
  have hlength := length_body desc bytes
  have hpeeked : peeked ⟨body desc bytes ++ rest⟩ 2 = encode 2 bytes.length := by
    rw [body, hsize, List.append_assoc, peeked_append (length_encode 2 _)]
  obtain ⟨code, hpeak⟩ := byteReaderPeak_zero ⟨body desc bytes ++ rest⟩ (k := 2) (n := 2) rfl
  rw [hpeeked] at hpeak
  have hsum : (bytes.length : Int) + 2 = (body desc bytes).length := by omega
  unfold copyColumnVarcharNotnull
  rw [if_neg (by omega), hpeak, Option.bind_some]
  simp only [toInt_ofInt16_encode (show bytes.length < 2 ^ 15 by omega)]
  rw [hsum, byteReaderRead_append (by omega)]
  rfl

/-- The indicator decides whether a value follows. -/
theorem copyColumnVarcharNullable_append {null : List UInt8} (hnull : desc.null = some null)
    (htwo : null.length = 2) (i : Int16) (rest : List UInt8) :
    copyColumnVarcharNullable ⟨int16 i ++ rest⟩ desc =
      if i ≠ -1 then copyColumnVarcharNotnull ⟨rest⟩ { desc with null := some (int16 i) }
      else some (⟨rest⟩, { desc with null := some (int16 i) }) := by
  have hread : byteReaderRead ⟨int16 i ++ rest⟩ null 2 = some (⟨rest⟩, int16 i) := by
    have h : byteReaderRead ⟨int16 i ++ rest⟩ null (int16 i).length = _ :=
      byteReaderRead_append (by simp [htwo])
    rwa [length_int16, List.drop_of_length_le htwo.le, List.append_nil] at h
  obtain ⟨code, hpeak⟩ := byteReaderPeak_zero ⟨int16 i ++ rest⟩ (k := 2) (n := 2) rfl
  rw [peeked_append (length_int16 i)] at hpeak
  unfold copyColumnVarcharNullable
  rw [hpeak, hnull, Option.bind_some, Option.getD_some, hread, Option.bind_some, ofInt16_int16]
  rfl

/-- A column whose value has no long length: the value is stored as it is, and a column that is null
    keeps its data. -/
theorem copyColumn_short (hfits : Fits desc cell) (hshort : ¬ IsLong desc cell)
    (rest : List UInt8) :
    copyColumn ⟨serialise desc cell ++ rest⟩ desc = some (⟨rest⟩, stored desc cell) := by
  -- a value of a short column, which has room for all of it
  have hvalue : ∀ {i bytes}, cell = .value i bytes →
      desc.len ≤ 0x7fff ∧ bytes.length ≤ desc.len ∧ (desc.null.isSome → i ≠ -1) := by
    rintro i bytes rfl
    have hnot : ¬ 0x7fff < desc.len := fun h => hshort ⟨h, by simp⟩
    exact ⟨by omega, hfits.cell⟩
  unfold copyColumn
  -- a column that may be null has the indicator in front of its data
  cases hnull : desc.null with
  | none =>
    cases cell with
    | null => simpa [hnull] using hfits.cell
    | value i bytes =>
      obtain ⟨hlen, hbytes, -⟩ := hvalue rfl
      simp only [Option.isSome_none, Bool.false_eq_true, if_false, serialise, stored, hnull,
        List.nil_append, Option.map_none]
      rw [copyColumnVarcharNotnull_short hlen hfits.room hbytes rest, hnull]
  | some null =>
    have hnullable := copyColumnVarcharNullable_append hnull (hfits.null null hnull)
    simp only [Option.isSome_some, if_true, serialise, hnull, List.append_assoc, hnullable, stored,
      Option.map_some]
    cases cell with
    | null => rfl
    | value i bytes =>
      obtain ⟨hlen, hbytes, hi⟩ := hvalue rfl
      have hne : indicator (.value i bytes) ≠ -1 := hi (by simp [hnull])
      rw [if_pos hne]
      exact @copyColumnVarcharNotnull_short { desc with null := some (int16 i) } hlen hfits.room
        bytes hbytes rest

/-! ### What a copied column takes from the reader -/

/-- Copying two bytes more than the length of `k` bytes in the reader says.  If the copy begins with
    the length `m`, it is of this length, or of fewer than `k` bytes. -/
theorem length_byteReaderRead {k m : Nat} (value : List UInt8 → Int) {dest tail : List UInt8}
    (hm : value (encode k m) = m)
    (h : byteReaderRead r dest (value (peeked r k) + 2) = some (r', encode k m ++ tail)) :
    r.data.length < r'.data.length + k ∨ r.data.length ≤ r'.data.length + (m + 2) := by
  rcases byteReaderRead_eq_some h with ⟨rfl, -⟩ | ⟨n, hn, hr, -, rfl, hcopy⟩
  · omega
  · rw [List.length_drop]
    by_cases hk : k ≤ n
    · -- the length in the reader is copied
      have htake : r.data.take k = encode k m := by
        have h := congrArg (List.take k) hcopy
        rw [List.take_left' (length_encode k m), List.take_append_of_le_length (by simp; omega),
          List.take_take, Nat.min_eq_left hk] at h
        exact h.symm
      rw [peeked, if_pos (hk.trans hr), htake, hm] at hn
      omega
    · omega

/-- **A value with a long length** takes two bytes less than it has, if its copy is right: the
    length has four bytes, and only two of them are counted. -/
theorem length_copyColumnVarcharNotnull (hlen : desc.len < 2 ^ 31) {bytes tail : List UInt8}
    (hbytes : bytes.length ≤ desc.len) (h : copyColumnVarcharNotnull r desc = some (r', desc'))
    (hdata : desc'.data = body desc bytes ++ tail) :
    r.data.length ≤ r'.data.length + (body desc bytes).length ∧
      (0x7fff < desc.len → r.data.length < r'.data.length + (body desc bytes).length) := by
  obtain ⟨⟨r₁, data⟩, hread, heq⟩ := Option.map_eq_some_iff.mp h
  obtain ⟨rfl, rfl⟩ := Prod.mk.inj heq
  dsimp only
  rw [length_body]
  simp only [body, List.append_assoc] at hdata
  subst hdata
  -- the count has four bytes for a long column, and two for a short one
  split_ifs at hread with hlong
  · have hsize : prefixSize desc = 4 := if_neg (by omega)
    obtain ⟨code, hpeak⟩ := byteReaderPeak_zero r (k := 4) (n := 4) rfl
    rw [hpeak, Option.bind_some, hsize] at hread
    dsimp only at hread
    split_ifs at hread
    have hvalue : (ofInt32 (encode 4 bytes.length)).toInt = bytes.length :=
      toInt_ofInt32_encode (by omega)
    have hle := length_byteReaderRead (fun l => (ofInt32 l).toInt) hvalue hread
    omega
  · have hsize : prefixSize desc = 2 := if_pos (by omega)
    obtain ⟨code, hpeak⟩ := byteReaderPeak_zero r (k := 2) (n := 2) rfl
    rw [hpeak, Option.bind_some, hsize] at hread
    have hvalue : (ofInt16 (encode 2 bytes.length)).toInt = bytes.length :=
      toInt_ofInt16_encode (by omega)
    have hle := length_byteReaderRead (fun l => (ofInt16 l).toInt) hvalue hread
    omega

/-- The copy of a value does not touch the indicator. -/
theorem null_copyColumnVarcharNotnull (h : copyColumnVarcharNotnull r desc = some (r', desc')) :
    desc'.null = desc.null := by
  obtain ⟨q, -, heq⟩ := Option.map_eq_some_iff.mp h
  obtain ⟨-, rfl⟩ := Prod.mk.inj heq
  rfl

/-- The indicator of a column whose copy is right, and the value if there is one. -/
theorem length_copyColumnVarcharNullable {null rest : List UInt8} {i : Int16}
    (hfits : Fits desc cell) (hnull : desc.null = some null)
    (h : copyColumnVarcharNullable ⟨int16 i ++ rest⟩ desc = some (r', stored desc cell)) :
    2 + rest.length ≤ r'.data.length + (serialise desc cell).length ∧
      (IsLong desc cell → 2 + rest.length < r'.data.length + (serialise desc cell).length) := by
  have htwo : 2 ≤ (serialise desc cell).length := by simp [serialise, hnull]
  rw [copyColumnVarcharNullable_append hnull (hfits.null null hnull)] at h
  split_ifs at h with hi
  · have hstored : (stored desc cell).null = some (int16 i) := null_copyColumnVarcharNotnull h
    have hindicator : indicator cell = i := by
      have heq := congrArg (Option.map ofInt16) hstored
      simpa [stored, hnull] using heq
    cases cell with
    | null => exact absurd hindicator.symm hi
    | value j bytes =>
      have hle : rest.length ≤ r'.data.length + (body desc bytes).length ∧
          (0x7fff < desc.len → rest.length < r'.data.length + (body desc bytes).length) :=
        @length_copyColumnVarcharNotnull ⟨rest⟩ r' { desc with null := some (int16 i) } _
          hfits.len.2 bytes _ hfits.cell.1 h rfl
      have hlength : (serialise desc (.value j bytes)).length = 2 + (body desc bytes).length := by
        simp [serialise, hnull]
      refine ⟨by omega, fun hlong => ?_⟩
      have hless := hle.2 hlong.1
      omega
  · -- the copy stops behind the indicator
    obtain ⟨rfl, -⟩ := Prod.mk.inj (Option.some.inj h)
    refine ⟨by dsimp only; omega, fun hlong => ?_⟩
    cases cell with
    | null => exact absurd rfl hlong.2
    | value j bytes =>
      have hsize : prefixSize desc = 4 := if_neg (by have := hlong.1; omega)
      have hlength : (serialise desc (.value j bytes)).length = 2 + (4 + bytes.length) := by
        simp [serialise, hnull, length_body, hsize]
      dsimp only
      omega

/-- **A column whose copy is right** takes at most its own bytes from the reader, and fewer if its
    value has a long length. -/
theorem length_copyColumn (hfits : Fits desc cell)
    (h : copyColumn r desc = some (r', stored desc cell)) :
    r.data.length ≤ r'.data.length + (serialise desc cell).length ∧
      (IsLong desc cell → r.data.length < r'.data.length + (serialise desc cell).length) := by
  unfold copyColumn at h
  cases hnull : desc.null with
  | none =>
    cases cell with
    | null => simpa [hnull] using hfits.cell
    | value i bytes =>
      rw [hnull] at h
      have hle := length_copyColumnVarcharNotnull hfits.len.2 hfits.cell.1 h rfl
      simpa [serialise, hnull, IsLong] using hle
  | some null =>
    rw [hnull, if_pos Option.isSome_some] at h
    by_cases hshort : r.data.length < 2
    · have htwo : 2 ≤ (serialise desc cell).length := by simp [serialise, hnull]
      omega
    · -- there is enough in the reader for an indicator, which is copied
      obtain ⟨i, rest, rfl⟩ : ∃ i rest, r = ⟨int16 i ++ rest⟩ := by
        refine ⟨ofInt16 (r.data.take 2), r.data.drop 2, ?_⟩
        rw [int16_ofInt16 (by simp; omega), List.take_append_drop]
      rw [List.length_append, length_int16]
      exact length_copyColumnVarcharNullable hfits hnull h

/-! ### Rows -/

/-- A row: the columns and their values. -/
abbrev Row := List (Desc × Cell)

/-- The bytes of a row, column by column. -/
def Row.bytes (row : Row) : List UInt8 := row.flatMap fun p => serialise p.1 p.2

/-- **A row without long lengths** is copied column by column, and the reader is behind it. -/
theorem copyRow_short {row : Row} (hfits : ∀ p ∈ row, Fits p.1 p.2)
    (hshort : ∀ p ∈ row, ¬ IsLong p.1 p.2) (rest : List UInt8) :
    copyRow ⟨row.bytes ++ rest⟩ (row.map Prod.fst)
      = some (⟨rest⟩, row.map fun p => stored p.1 p.2) := by
  induction row with
  | nil => rfl
  | cons p row ih =>
    rw [List.forall_mem_cons] at hfits hshort
    have hcolumn := copyColumn_short hfits.1 hshort.1 (Row.bytes row ++ rest)
    rw [List.map_cons, copyRow, Row.bytes, List.flatMap_cons, List.append_assoc]
    rw [Row.bytes] at hcolumn ih
    rw [hcolumn, Option.bind_some, ih hfits.2 hshort.2]
    rfl

/-- A row whose copy is right takes at most its own bytes, and all of them only if it has no long
    length. -/
theorem length_copyRow {row : Row} (hfits : ∀ p ∈ row, Fits p.1 p.2)
    (h : copyRow r (row.map Prod.fst) = some (r', row.map fun p => stored p.1 p.2)) :
    r.data.length ≤ r'.data.length + row.bytes.length ∧
      (r.data.length = r'.data.length + row.bytes.length → ∀ p ∈ row, ¬ IsLong p.1 p.2) := by
  induction row generalizing r with
  | nil =>
    cases h
    simp
  | cons p row ih =>
    rw [List.forall_mem_cons] at hfits ⊢
    obtain ⟨⟨mid, desc⟩, hcolumn, hrest⟩ := Option.bind_eq_some_iff.mp h
    obtain ⟨⟨last, descs⟩, hrow, heq⟩ := Option.map_eq_some_iff.mp hrest
    simp only [List.map_cons, Prod.mk.injEq, List.cons.injEq] at heq
    obtain ⟨rfl, rfl, rfl⟩ := heq
    dsimp only at hrow
    have hone := length_copyColumn hfits.1 hcolumn
    have hmany := ih hfits.2 hrow
    have hlength : (Row.bytes (p :: row)).length
        = (serialise p.1 p.2).length + (Row.bytes row).length := by
      rw [Row.bytes, List.flatMap_cons, List.length_append]
      rfl
    refine ⟨by omega, fun htotal => ⟨fun hlong => ?_, hmany.2 (by omega)⟩⟩
    have hless := hone.2 hlong
    omega

/-- **Clipped rows.**  A row of values that fit their columns is copied column by column, each byte
    to its place, and the reader is left at the end of the row, exactly if no value of a column with
    a declared length over `0x7fff` is present. -/
theorem clipped_rows (row : Row) (hfits : ∀ p ∈ row, Fits p.1 p.2) (rest : List UInt8) :
    copyRow ⟨row.bytes ++ rest⟩ (row.map Prod.fst)
        = some (⟨rest⟩, row.map fun p => stored p.1 p.2) ↔
      ∀ p ∈ row, 0x7fff < p.1.len → p.2 = .null := by
  have hlong : (∀ p ∈ row, ¬ IsLong p.1 p.2) ↔ ∀ p ∈ row, 0x7fff < p.1.len → p.2 = .null := by
    simp only [IsLong, not_and, not_not]
  rw [← hlong]
  constructor
  · intro h
    apply (length_copyRow hfits h).2
    rw [List.length_append, Nat.add_comm]
  · intro hshort
    exact copyRow_short hfits hshort rest

/-- A value in a short column, and a long column that is null: the first one is stored, and of the
    second one only the indicator. -/
theorem clipped_rows_null : ∃ data : List UInt8, data.length = 0x8004 ∧
    copyRow ⟨[0, 0, 3, 0, 7, 8, 9, 255, 255]⟩
        [⟨[0, 0, 0, 0, 0, 0], some [1, 1], 4⟩, ⟨data, some [0, 0], 0x8000⟩]
      = some (⟨[]⟩, [⟨[3, 0, 7, 8, 9, 0], some [0, 0], 4⟩, ⟨data, some [255, 255], 0x8000⟩]) := by
  obtain ⟨data, hlength⟩ : ∃ data : List UInt8, data.length = 0x8004 :=
    ⟨List.replicate 0x8004 0, List.length_replicate⟩
  have hrow := (clipped_rows [(⟨[0, 0, 0, 0, 0, 0], some [1, 1], 4⟩, .value 0 [7, 8, 9]),
    (⟨data, some [0, 0], 0x8000⟩, .null)] ?_ []).mpr ?_
  · have hnull : int16 (-1) = [255, 255] := by decide
    have hvalue : int16 0 = [0, 0] := by decide
    have hprefix : encode 2 3 = [3, 0] := by decide
    exact ⟨data, hlength, by
      simpa [Row.bytes, serialise, stored, indicator, body, prefixSize, hnull, hvalue, hprefix]
        using hrow⟩
  · rw [List.forall_mem_cons, List.forall_mem_singleton]
    exact ⟨⟨by decide, by decide, by decide, by decide⟩,
      ⟨by simp, by simp [prefixSize, hlength], by simp, by simp⟩⟩
  · rw [List.forall_mem_cons, List.forall_mem_singleton]
    exact ⟨by decide, fun _ => rfl⟩

/-- A value of three bytes in a long column: its last two bytes are not copied, and they are left in
    the reader. -/
theorem clipped_rows_long : ∃ (desc : Desc) (cell : Cell), Fits desc cell ∧
    copyRow ⟨Row.bytes [(desc, cell)]⟩ [desc]
      = some (⟨[2, 3]⟩, [{ desc with data := [3, 0, 0, 0, 1] ++ desc.data.drop 5 }]) := by
  obtain ⟨data, hlength⟩ : ∃ data : List UInt8, data.length = 0x8004 :=
    ⟨List.replicate 0x8004 0, List.length_replicate⟩
  have hread : byteReaderRead ⟨[3, 0, 0, 0, 1, 2, 3]⟩ data 5
      = some (⟨[2, 3]⟩, [3, 0, 0, 0, 1] ++ data.drop 5) :=
    byteReaderRead_append (a := [3, 0, 0, 0, 1]) (by rw [hlength]; decide)
  refine ⟨⟨data, none, 0x8000⟩, .value 0 [1, 2, 3],
    ⟨by simp, by simp [prefixSize, hlength], by simp, by simp⟩, ?_⟩
  have hprefix : encode 4 3 = [3, 0, 0, 0] := by decide
  have hbytes : Row.bytes [(⟨data, none, 0x8000⟩, .value 0 [1, 2, 3])] = [3, 0, 0, 0, 1, 2, 3] := by
    simp [Row.bytes, serialise, body, prefixSize, hprefix]
  have hpeak : byteReaderPeak ⟨[3, 0, 0, 0, 1, 2, 3]⟩ (encode 4 0) 4
      = some (0, [3, 0, 0, 0]) := by decide
  have hvalue : (ofInt32 [3, 0, 0, 0]).toInt = 3 := by decide
  rw [hbytes]
  simp [copyRow, copyColumn, copyColumnVarcharNotnull, hpeak, hvalue, hread]

end ClipVarchar

end CPlayground
