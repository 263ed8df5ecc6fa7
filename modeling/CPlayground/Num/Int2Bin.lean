import CPlayground.Lib.Memory
import Mathlib.Data.Nat.Bitwise
import Mathlib.Data.Nat.Log

namespace CPlayground.Num

open CPlayground.Memory

/-!
# `int2bin`: a number in binary digits

`int2bin` prints the four bytes of a number from a table, with an apostrophe between them, and
then moves the text over its leading zeros: the number of bytes to leave out is computed from
`__builtin_clz`.  The table was printed with `char2bin`.

* `char2bin_eq_row` — the table has what `char2bin` writes.
* `int2bin_round_trip` — for every number the text is in the buffer of 38 bytes, it reads as the
  number, and it begins with a one.
-/

/-- `'0' + b`. -/
def digit (b : Bool) : UInt8 := if b then 49 else 48

/-- The apostrophe. -/
def quote : UInt8 := 39

/-- `char2bin`: the digits from the last one on, and the terminator. -/
def char2bin (c : Nat) (buf : Mem) : Option Mem :=
  ((List.range 8).foldlM (fun p i => write p (8 - 1 - i) (digit (c.testBit i))) buf).bind fun p =>
    write p 8 0

/-- `binary_table`. -/
def binaryTable : List String := [
  "00000000", "00000001", "00000010", "00000011", "00000100", "00000101", "00000110", "00000111",
  "00001000", "00001001", "00001010", "00001011", "00001100", "00001101", "00001110", "00001111",
  "00010000", "00010001", "00010010", "00010011", "00010100", "00010101", "00010110", "00010111",
  "00011000", "00011001", "00011010", "00011011", "00011100", "00011101", "00011110", "00011111",
  "00100000", "00100001", "00100010", "00100011", "00100100", "00100101", "00100110", "00100111",
  "00101000", "00101001", "00101010", "00101011", "00101100", "00101101", "00101110", "00101111",
  "00110000", "00110001", "00110010", "00110011", "00110100", "00110101", "00110110", "00110111",
  "00111000", "00111001", "00111010", "00111011", "00111100", "00111101", "00111110", "00111111",
  "01000000", "01000001", "01000010", "01000011", "01000100", "01000101", "01000110", "01000111",
  "01001000", "01001001", "01001010", "01001011", "01001100", "01001101", "01001110", "01001111",
  "01010000", "01010001", "01010010", "01010011", "01010100", "01010101", "01010110", "01010111",
  "01011000", "01011001", "01011010", "01011011", "01011100", "01011101", "01011110", "01011111",
  "01100000", "01100001", "01100010", "01100011", "01100100", "01100101", "01100110", "01100111",
  "01101000", "01101001", "01101010", "01101011", "01101100", "01101101", "01101110", "01101111",
  "01110000", "01110001", "01110010", "01110011", "01110100", "01110101", "01110110", "01110111",
  "01111000", "01111001", "01111010", "01111011", "01111100", "01111101", "01111110", "01111111",
  "10000000", "10000001", "10000010", "10000011", "10000100", "10000101", "10000110", "10000111",
  "10001000", "10001001", "10001010", "10001011", "10001100", "10001101", "10001110", "10001111",
  "10010000", "10010001", "10010010", "10010011", "10010100", "10010101", "10010110", "10010111",
  "10011000", "10011001", "10011010", "10011011", "10011100", "10011101", "10011110", "10011111",
  "10100000", "10100001", "10100010", "10100011", "10100100", "10100101", "10100110", "10100111",
  "10101000", "10101001", "10101010", "10101011", "10101100", "10101101", "10101110", "10101111",
  "10110000", "10110001", "10110010", "10110011", "10110100", "10110101", "10110110", "10110111",
  "10111000", "10111001", "10111010", "10111011", "10111100", "10111101", "10111110", "10111111",
  "11000000", "11000001", "11000010", "11000011", "11000100", "11000101", "11000110", "11000111",
  "11001000", "11001001", "11001010", "11001011", "11001100", "11001101", "11001110", "11001111",
  "11010000", "11010001", "11010010", "11010011", "11010100", "11010101", "11010110", "11010111",
  "11011000", "11011001", "11011010", "11011011", "11011100", "11011101", "11011110", "11011111",
  "11100000", "11100001", "11100010", "11100011", "11100100", "11100101", "11100110", "11100111",
  "11101000", "11101001", "11101010", "11101011", "11101100", "11101101", "11101110", "11101111",
  "11110000", "11110001", "11110010", "11110011", "11110100", "11110101", "11110110", "11110111",
  "11111000", "11111001", "11111010", "11111011", "11111100", "11111101", "11111110", "11111111"]

/-- The bytes of a text. -/
def ascii (s : String) : List UInt8 := s.toUTF8.data.toList

/-- `binary_table[x]`. -/
def row (x : Nat) : List UInt8 := ascii (binaryTable.getD x "")

/-- `strcpy(&p[i], s)`. -/
def strcpy (p : Mem) (i : Nat) (s : List UInt8) : Option Mem := store p i (s ++ [0])

/-- `snprintf(&p[i], n, "%s", s)`. -/
def snprintf (p : Mem) (i n : Nat) (s : List UInt8) : Option Mem :=
  store p i (s.take (n - 1) ++ [0])

/-- `__builtin_clz`, for a number that is not zero. -/
def clz (u : UInt32) : Nat := 31 - u.toNat.log2

/-- The sizes for `snprintf`: eight digits and the terminator, and an apostrophe behind every byte
    but the lowest one. -/
def MAX_LEN : List Nat := [9, 10, 10, 10]

/-- `(u >> (i * 8)) & 0xff`. -/
def byte (u : UInt32) (i : Nat) : Nat := u.toNat >>> (i * 8) &&& 0xff

/-- The body of the loop. -/
def printByte (u : UInt32) (p : Mem) (i : Nat) : Option Mem :=
  snprintf p (2 + (3 - i) * 9) (MAX_LEN.getD i 0) (row (byte u i) ++ [quote])

/-- `int2bin` in a block of memory. -/
def int2bin (u : UInt32) (buf : Mem) : Option Mem :=
  (strcpy buf 0 (ascii "0b")).bind fun p =>
    if u = 0 then strcpy p 2 (ascii "0")
    else
      ([3, 2, 1, 0].foldlM (printByte u) p).bind fun p =>
        let lz := clz u
        -- `memmove`: the two places overlap, and what is moved is read first.
        memcpy p 2 (p.drop (2 + lz + lz / 8)) (36 - lz - lz / 8)

/-! ### The table -/

/-- The digits of a byte. -/
def bits (x : Nat) : List UInt8 := (List.range 8).map fun j => digit (x.testBit (7 - j))

/-- The table of the source, row by row. -/
theorem table_eq : binaryTable.map ascii = (List.range 256).map bits := by decide +kernel

/-- A row of the table has the eight bits of its number. -/
theorem row_eq_bits {x : Nat} (hx : x < 256) : row x = bits x := by
  have hrow : row x = (binaryTable.map ascii).getD x (ascii "") := (List.getD_map ..).symm
  rw [hrow, table_eq, List.getD_eq_getElem?_getD, List.getElem?_map, List.getElem?_range hx]
  rfl

/-- **The table** has what `char2bin` writes: each row is a string of eight digits, the highest bit
    first. -/
theorem char2bin_eq_row {x : Nat} (hx : x < 256) :
    char2bin x (malloc 9) = some (cstr (row x)) := by
  rw [row_eq_bits hx]
  rfl

/-! ### Reading a text -/

/-- What one more character makes of a number.  Apostrophes are left out. -/
def shown (n : Nat) (c : UInt8) : Nat := if c = quote then n else 2 * n + (c.toNat - 48)

/-- The number that a text shows. -/
def value (text : List UInt8) : Nat := text.foldl shown 0

/-- Zeros and apostrophes at the beginning do not change the number. -/
theorem value_zeros {zeros text : List UInt8} (h : ∀ c ∈ zeros, c = digit false ∨ c = quote) :
    value (zeros ++ text) = value text := by
  induction zeros with
  | nil => rfl
  | cons c zeros ih =>
    rw [List.forall_mem_cons] at h
    have hnext := ih h.2
    rw [value] at hnext ⊢
    rw [List.cons_append, List.foldl_cons]
    rcases h.1 with rfl | rfl
    · exact hnext
    · exact hnext

/-- A digit shifts the number by one bit. -/
theorem shown_digit (n : Nat) (b : Bool) : shown n (digit b) = 2 * n + b.toNat := by
  cases b <;> rfl

/-- The last digits of a number, one after another. -/
theorem foldl_digits (x n k : Nat) :
    ((List.range k).reverse.map fun i => digit (x.testBit i)).foldl shown n
      = n * 2 ^ k + x % 2 ^ k := by
  induction k generalizing n with
  | zero => simp [Nat.mod_one]
  | succ k ih =>
    rw [List.range_succ, List.reverse_append, List.reverse_singleton, List.singleton_append,
      List.map_cons, List.foldl_cons, shown_digit, ih, Nat.mod_pow_succ, Nat.toNat_testBit,
      Nat.add_mul, Nat.pow_succ, Nat.mul_comm (2 ^ k) (_ % 2), Nat.mul_comm 2 n, Nat.mul_assoc,
      Nat.mul_comm 2 (2 ^ k), Nat.add_assoc, Nat.add_comm (x % 2 ^ k)]

/-- One more byte. -/
theorem value_append_bits (text : List UInt8) {x : Nat} (hx : x < 256) :
    value (text ++ bits x) = value text * 256 + x := by
  have hbits : bits x = (List.range 8).reverse.map fun i => digit (x.testBit i) := rfl
  rw [value, List.foldl_append, ← value, hbits, foldl_digits]
  exact congrArg (value text * 256 + ·) (Nat.mod_eq_of_lt hx)

/-- An apostrophe at the end does not change the number. -/
theorem value_append_quote (text : List UInt8) : value (text ++ [quote]) = value text := by
  rw [value, List.foldl_append]
  rfl

/-! ### The line -/

/-- The four bytes, with the apostrophes. -/
def line (u : UInt32) : List UInt8 :=
  bits (byte u 3) ++ [quote] ++ bits (byte u 2) ++ [quote] ++ bits (byte u 1) ++ [quote] ++
    bits (byte u 0)

/-- A byte of a number. -/
theorem byte_eq (u : UInt32) (i : Nat) : byte u i = u.toNat / 2 ^ (i * 8) % 256 := by
  rw [byte, Nat.shiftRight_eq_div_pow]
  exact Nat.and_two_pow_sub_one_eq_mod _ 8

/-- A byte is a byte. -/
theorem byte_lt (u : UInt32) (i : Nat) : byte u i < 256 := by
  rw [byte_eq]
  exact Nat.mod_lt _ (by decide)

/-- **The line reads as the number**: four bytes, and three apostrophes between them. -/
theorem value_line (u : UInt32) : value (line u) = u.toNat := by
  have hlt := u.toNat_lt
  have hempty : value [] = 0 := rfl
  rw [line, value_append_bits _ (byte_lt u 0), value_append_quote,
    value_append_bits _ (byte_lt u 1), value_append_quote, value_append_bits _ (byte_lt u 2),
    value_append_quote, ← List.nil_append (bits (byte u 3)), value_append_bits _ (byte_lt u 3),
    hempty]
  simp only [byte_eq]
  omega

/-- What stands at a place of the line. -/
def lineAt (u : UInt32) (t : Nat) : UInt8 :=
  if t % 9 = 8 then quote else digit (u.toNat.testBit (31 - (t - t / 9)))

/-- The digits of a byte are bits of the number: byte `i` has those from place `8 * i` on, the
    highest one first. -/
theorem bits_byte (u : UInt32) (i : Nat) :
    bits (byte u i)
      = [7, 6, 5, 4, 3, 2, 1, 0].map fun m => digit (u.toNat.testBit (i * 8 + m)) := by
  have hbit : ∀ m < 8, (byte u i).testBit m = u.toNat.testBit (i * 8 + m) := by
    intro m hm
    have hmask : Nat.testBit 0xff m = true := by
      have h : ∀ m : Fin 8, Nat.testBit 0xff m = true := by decide
      exact h ⟨m, hm⟩
    rw [byte, Nat.testBit_and, Nat.testBit_shiftRight, hmask, Bool.and_true]
  have hbits : bits (byte u i)
      = [7, 6, 5, 4, 3, 2, 1, 0].map fun m => digit ((byte u i).testBit m) :=
    rfl
  rw [hbits]
  refine List.map_congr_left fun m hm => ?_
  have hlt : m < 8 := by
    simp only [List.mem_cons, List.not_mem_nil, or_false] at hm
    omega
  rw [hbit m hlt]

/-- The characters of the line, each by its place. -/
theorem line_eq (u : UInt32) : line u = (List.range 35).map (lineAt u) := by
  simp only [line, bits_byte]
  rfl

/-- The places in front of the first one. -/
theorem lineAt_leading {u : UInt32} (hu : u ≠ 0) {t : Nat} (ht : t < clz u + clz u / 8) :
    lineAt u t = digit false ∨ lineAt u t = quote := by
  rw [lineAt]
  split
  · exact .inr rfl
  · left
    have hne : u.toNat ≠ 0 := fun h => hu (UInt32.toNat_inj.mp h)
    have hlog : u.toNat.log2 < 32 := (Nat.log2_lt hne).mpr u.toNat_lt
    have hbig : u.toNat < 2 ^ (31 - (t - t / 9)) := by
      refine (Nat.log2_lt hne).mp ?_
      rw [clz] at ht
      omega
    rw [Nat.testBit_lt_two_pow hbig]

/-- **The first one** stands where the leading zeros end: one place more for every eight of them,
    for the apostrophe. -/
theorem lineAt_first {u : UInt32} (hu : u ≠ 0) : lineAt u (clz u + clz u / 8) = digit true := by
  have hne : u.toNat ≠ 0 := fun h => hu (UInt32.toNat_inj.mp h)
  have hlog : u.toNat.log2 < 32 := (Nat.log2_lt hne).mpr u.toNat_lt
  have hplace : (clz u + clz u / 8) % 9 ≠ 8 := by omega
  have hbit : 31 - ((clz u + clz u / 8) - (clz u + clz u / 8) / 9) = u.toNat.log2 := by
    rw [clz]
    omega
  rw [lineAt, if_neg hplace, hbit, Nat.testBit_log2 hne]

/-! ### The memory -/

/-- A part of the text, over the terminator of what is there. -/
theorem store_over (text cs : List UInt8) (z : Option UInt8) {rest : Mem}
    (hrest : cs.length ≤ rest.length) :
    store (text.map some ++ z :: rest) text.length (cs ++ [0])
      = some ((text ++ cs).map some ++ some 0 :: rest.drop cs.length) := by
  have hmid : (z :: rest.take cs.length).length = (cs ++ [0]).length := by
    rw [List.length_cons, List.length_take_of_le hrest, List.length_append, List.length_singleton]
  have h := store_append (text.map some) (z :: rest.take cs.length) (rest.drop cs.length) hmid
  rw [List.length_map, List.cons_append, List.take_append_drop] at h
  rw [h]
  simp

/-- A byte has eight digits. -/
theorem length_bits (x : Nat) : (bits x).length = 8 := rfl

/-- A byte with an apostrophe, at its place. -/
theorem printByte_quote (u : UInt32) {text : List UInt8} {rest : Mem} {i : Nat}
    (hi : text.length = 2 + (3 - i) * 9) (hn : MAX_LEN.getD i 0 = 10) (hrest : 9 ≤ rest.length) :
    printByte u (text.map some ++ some 0 :: rest) i
      = some ((text ++ (bits (byte u i) ++ [quote])).map some ++ some 0 :: rest.drop 9) := by
  rw [printByte, ← hi, hn, row_eq_bits (byte_lt u i)]
  exact store_over text (bits (byte u i) ++ [quote]) (some 0) hrest

/-- The last byte, where the apostrophe is cut off. -/
theorem printByte_last (u : UInt32) {text : List UInt8} {rest : Mem} (hi : text.length = 29)
    (hrest : rest.length = 8) :
    printByte u (text.map some ++ some 0 :: rest) 0 = some (cstr (text ++ bits (byte u 0))) := by
  have h := store_over text (bits (byte u 0)) (some 0) (Nat.le_of_eq hrest.symm)
  rw [length_bits, List.drop_eq_nil_of_le (Nat.le_of_eq hrest), hi] at h
  rw [printByte, row_eq_bits (byte_lt u 0), cstr, List.map_append]
  exact h

/-- One round of a loop. -/
theorem foldlM_step {α β : Type} {f : β → α → Option β} {b b' : β} {a : α} {as : List α}
    (h : f b a = some b') : (a :: as).foldlM f b = as.foldlM f b' := by
  rw [List.foldlM_cons, h]
  rfl

/-- The text before it is moved. -/
theorem print_line (u : UInt32) {rest : Mem} (hrest : rest.length = 35) :
    [3, 2, 1, 0].foldlM (printByte u) ((ascii "0b").map some ++ some 0 :: rest)
      = some (cstr (ascii "0b" ++ line u)) := by
  have hlength : (ascii "0b").length = 2 := by decide
  rw [foldlM_step (printByte_quote u hlength rfl (by omega)),
    foldlM_step (printByte_quote u (by simp [hlength, length_bits]) rfl (by simp; omega)),
    foldlM_step (printByte_quote u (by simp [hlength, length_bits]) rfl (by simp; omega)),
    foldlM_step (printByte_last u (by simp [hlength, length_bits]) (by simp; omega))]
  simp only [line, List.append_assoc]
  rfl

/-- The text after it is moved: `memcpy` takes the digits from behind the leading zeros to the place
    behind the `0b`. -/
theorem move_line (u : UInt32) {k : Nat} (hk : k ≤ 35) :
    ∃ rest, memcpy (cstr (ascii "0b" ++ line u)) 2 ((cstr (ascii "0b" ++ line u)).drop (2 + k))
      (36 - k) = some (cstr (ascii "0b" ++ (line u).drop k) ++ rest) := by
  have hline : (line u).length = 35 := rfl
  have hmem : cstr (ascii "0b" ++ line u) = (ascii "0b").map some ++ cstr (line u) :=
    cstr_of_append ..
  have htake : (cstr (ascii "0b" ++ line u)).take 2 = (ascii "0b").map some := by
    rw [hmem]
    exact List.take_left' (by decide)
  have hdrop : (cstr (ascii "0b" ++ line u)).drop (2 + k) = cstr ((line u).drop k) := by
    rw [hmem, ← List.drop_drop, List.drop_left' (by decide), cstr, cstr, ← List.map_drop,
      List.drop_append_of_le_length (by omega)]
  have hlength : (cstr ((line u).drop k)).length = 36 - k := by
    rw [length_cstr, List.length_drop]
    omega
  have hroom : 2 + (36 - k) ≤ (cstr (ascii "0b" ++ line u)).length := by
    rw [length_cstr, List.length_append, hline, show (ascii "0b").length = 2 by decide]
    omega
  refine ⟨(cstr (ascii "0b" ++ line u)).drop (2 + (36 - k)), ?_⟩
  rw [memcpy, if_pos ⟨hroom, by rw [hdrop, hlength]⟩, htake, hdrop,
    List.take_of_length_le (Nat.le_of_eq hlength), cstr_of_append (ascii "0b") (List.drop ..),
    List.append_assoc]

/-- The line has no NUL in it. -/
theorem mem_line {u : UInt32} {c : UInt8} (hc : c ∈ line u) : c ≠ 0 := by
  rw [line_eq, List.mem_map] at hc
  obtain ⟨t, -, rfl⟩ := hc
  rw [lineAt]
  split
  · decide
  · cases u.toNat.testBit (31 - (t - t / 9)) <;> decide

/-- The leading zeros do not count. -/
theorem value_drop_leading {u : UInt32} (hu : u ≠ 0) :
    value ((line u).drop (clz u + clz u / 8)) = u.toNat := by
  have hzeros : ∀ c ∈ (line u).take (clz u + clz u / 8), c = digit false ∨ c = quote := by
    intro c hc
    rw [line_eq, ← List.map_take, List.mem_map] at hc
    obtain ⟨t, ht, rfl⟩ := hc
    rw [List.take_range, List.mem_range] at ht
    exact lineAt_leading hu (Nat.lt_of_lt_of_le ht (Nat.min_le_left _ _))
  rw [← value_zeros hzeros, List.take_append_drop, value_line]

/-- The first one is in the line. -/
theorem clz_le (u : UInt32) : clz u + clz u / 8 < 35 := by
  rw [clz]
  omega

/-- **`int2bin` reads back.**  For every number and every buffer of 38 bytes, `int2bin` stays in the
    buffer and leaves a text in it: `0b` and the number in binary digits, with apostrophes where the
    bytes meet, and without leading zeros. -/
theorem int2bin_round_trip (u : UInt32) {buf : Mem} (hbuf : buf.length = 38) :
    ∃ body rest, int2bin u buf = some (cstr (ascii "0b" ++ body) ++ rest) ∧
      value body = u.toNat ∧ 0 ∉ body ∧ body <:+ line u ∧
      (u ≠ 0 → body.head? = some (digit true)) := by
  -- `"0b"` takes the first three bytes, with the terminator, and the digits go over the latter
  obtain ⟨head, tail, rfl, hhead⟩ : ∃ head tail, buf = head ++ tail ∧ head.length = 3 :=
    ⟨buf.take 3, buf.drop 3, (List.take_append_drop ..).symm, by simp [hbuf]⟩
  have htail : tail.length = 35 := by
    rw [List.length_append] at hbuf
    omega
  have hstart : strcpy (head ++ tail) 0 (ascii "0b") =
      some ((ascii "0b").map some ++ some 0 :: tail) := store_append [] head tail hhead
  rw [int2bin, hstart, Option.bind_some]
  split
  -- zero is written by itself
  · rename_i hu
    have hzero := store_over (ascii "0b") (ascii "0") (some 0) (Nat.le_of_lt_succ (by
      rw [htail]; decide : (ascii "0").length < tail.length + 1))
    refine ⟨ascii "0", tail.drop 1, ?_, ?_, by decide, ?_, fun hne => absurd hu hne⟩
    · rw [cstr_append]
      exact hzero
    · rw [hu]
      decide
    · rw [hu]
      decide
  -- all 32 digits with their apostrophes, moved down by the leading zeros and their apostrophes
  · rename_i hu
    rw [print_line u htail, Option.bind_some]
    obtain ⟨rest, hmove⟩ := move_line u (Nat.le_of_lt (clz_le u))
    refine ⟨(line u).drop (clz u + clz u / 8), rest, ?_, value_drop_leading hu,
      fun h => mem_line (List.mem_of_mem_drop h) rfl, List.drop_suffix _ _, fun _ => ?_⟩
    · dsimp only
      rw [← hmove, Nat.add_assoc, Nat.sub_sub]
    · rw [List.head?_drop, line_eq, List.getElem?_map, List.getElem?_range (clz_le u),
        Option.map_some, lineAt_first hu]

/-- The mantissa of 1000.5. -/
theorem int2bin_round_trip_mantissa : ∃ body rest,
    int2bin 0x7a2000 (malloc 38) = some (cstr (ascii "0b" ++ body) ++ rest) ∧
      value body = 0x7a2000 ∧ 0 ∉ body ∧ body <:+ line 0x7a2000 ∧
      ((0x7a2000 : UInt32) ≠ 0 → body.head? = some (digit true)) :=
  int2bin_round_trip 0x7a2000 List.length_replicate

example : (int2bin 0x7a2000 (malloc 38)).bind toStr
    = some (ascii "0b1111010'00100000'00000000") := by
  decide +kernel

end CPlayground.Num
