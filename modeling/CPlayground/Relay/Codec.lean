import CPlayground.Lib.Bytes
import CPlayground.Lib.CString

namespace CPlayground.Relay

open CPlayground.Bytes CPlayground.CString

/-!
# `Codec`: a weight in twelve bytes

The collector parses a datagram `serial@block@weight` and the address that it came from into an
`Input`, packs it into a `Data`, and the relay prints the `Data` as a topic and a JSON text.

* `Codec.parseIp`, `parseWeight`, `parseBlock`, `parseSerial` — the parser.
* `Codec.encode`, `Codec.decode` — packing and printing; `decode_encode` puts them together.
* `Codec.Data.block` — the bytes of a `Data`, which has no padding.
* `payload_fits` — when the text fits into the buffer that it is printed to; `payload_fits_encode`
  says it of the fields that were packed.

`unsigned long` has 64 bits, and `decode` takes the text buffer of `load` as large enough.
-/

namespace Codec

/-- The bits of the last part of an address. -/
def IP_MASK : UInt32 := 0xff

/-- The bits of a weight. -/
def WEIGHT_MASK : UInt32 := 0xffff

/-- The bits of a block. -/
def BLOCK_MASK : UInt64 := 0xffffffff

/-- The weight text that stands for an error. -/
def BAD : List Char := "-65535".toList

/-- The number of its characters. -/
def BAD_LEN : Nat := 6

/-- `Codec::Data`. -/
structure Data where
  a : UInt32
  b : UInt64
  deriving DecidableEq

/-- `Codec::Input`. -/
structure Input where
  error : UInt8 := 0
  ip : UInt8 := 0
  weight : UInt16 := 0
  block : UInt32 := 0
  serial : UInt32 := 0

/-- `Codec::Output`. -/
structure Output where
  payload : List Char
  topic : List Char
  deriving DecidableEq

/-- `kDataSize`. -/
def kDataSize : Nat := 12

/-- As many bytes as a `Data` has. -/
abbrev Block := { bytes : List UInt8 // bytes.length = kDataSize }

/-- The bytes of a `Data`. -/
def Data.block (x : Data) : Block := ⟨word32 x.a ++ word64 x.b, by simp [kDataSize]⟩

/-- The `Data` in a piece of memory. -/
def Data.ofBytes (p : List UInt8) : Data := ⟨ofWord32 (p.take 4), ofWord64 ((p.drop 4).take 8)⟩

/-- **Round trip** of a `Data` through its bytes. -/
@[simp] theorem Data.ofBytes_block (x : Data) : Data.ofBytes x.block.1 = x := by
  unfold Data.ofBytes Data.block
  simp only [List.take_left' (length_word32 _), List.drop_left' (length_word32 _),
    List.take_of_length_le (length_word64 _).le, ofWord32_word32, ofWord64_word64]

/-! ### Parsing -/

/-- `Input::parseIp`. -/
def parseIp (input : Input) (data : List Char) : Input :=
  match strrchr '.' data with
  | some dot => { input with ip := ((atoi dot.tail).toUInt32 &&& IP_MASK).toUInt8 }
  | none     => input

/-- `Input::parseWeight`. -/
def parseWeight (input : Input) (data : List Char) : Input :=
  match strrchr '@' data with
  | some sep =>
    if strncmpEq '\x00' BAD_LEN sep.tail BAD then
      { input with error := 1, weight := WEIGHT_MASK.toUInt16 }
    else { input with weight := ((atoi sep.tail).toUInt32 &&& WEIGHT_MASK).toUInt16 }
  | none => input

/-- `Input::parseBlock`. -/
def parseBlock (input : Input) (data : List Char) : Input :=
  match strchr '@' data with
  | some sep => { input with block := (atoi sep.tail).toUInt32 }
  | none     => input

/-- `Input::parseSerial`. -/
def parseSerial (input : Input) (data : List Char) : Input :=
  { input with serial := (strtoull data).toUInt32 }

/-! ### Packing and printing -/

/-- `Codec::Encode`. -/
def encode (input : Input) : Data where
  a := input.serial
  b := input.error.toUInt64 <<< 56 ||| input.ip.toUInt64 <<< 48 ||| input.weight.toUInt64 <<< 32 |||
    input.block.toUInt64

/-- The table of `i2s`. -/
def cs (i : UInt8) : Char := "0123456789ABCDEF".toList.getD i.toNat '\x00'

/-- `i2s`: the bytes are taken from the lowest one on, and the digits written from right to
    left. -/
def i2s (x : UInt32) : List Char :=
  (word32 x).foldl (fun s (i : UInt8) => cs ((i >>> 4) &&& 0xf) :: cs (i &&& 0xf) :: s) []

/-- `Output::RetrieveTopic`. -/
def retrieveTopic (x : UInt64) : List Char := decimal (x >>> 48).toUInt8.toNat

/-- `PATTERN`. -/
def pattern (serial : Nat) (topic : List Char) (weight : Int) (id : List Char) : List Char :=
  "\x7b\"serial\":".toList ++ decimal serial ++ ",\"topic\":\"".toList ++ topic ++
    "\",\"weight\":".toList ++ decimal weight ++ ",\"id\":\"".toList ++ id ++ "\"\x7d".toList

/-- `Output::load`, which is all of `Codec::Decode`. -/
def decode (data : Data) : Output :=
  let x := data.b
  let error := (x >>> 56).toUInt8
  let block := x &&& BLOCK_MASK
  let topic := retrieveTopic x
  { topic := topic
    payload := pattern data.a.toNat topic
      (if error ≠ 0 then (atoi BAD).toInt
        else ((x >>> 32) &&& WEIGHT_MASK.toUInt64).toUInt16.toInt16.toInt)
      (if block ≠ 0 then i2s (x &&& BLOCK_MASK).toUInt32 else "NONE".toList) }

/-! ### What is printed -/

/-- The parts of a word do not overlap, so the word is their sum: eight bits for the error and for
    the address, 16 for the weight and 32 for the block. -/
theorem toNat_b_encode (input : Input) : (encode input).b.toNat
    = input.error.toNat * 2 ^ 56 + input.ip.toNat * 2 ^ 48 + input.weight.toNat * 2 ^ 32
      + input.block.toNat := by
  have herror := input.error.toNat_lt
  have hip := input.ip.toNat_lt
  have hweight := input.weight.toNat_lt
  have hblock := input.block.toNat_lt
  have hshift : ∀ {x i : Nat}, x * 2 ^ i < 2 ^ 64 → x <<< i % 2 ^ 64 = x * 2 ^ i := by
    intro x i hlt
    rw [Nat.shiftLeft_eq, Nat.mod_eq_of_lt hlt]
  simp only [encode, UInt64.toNat_or, UInt64.toNat_shiftLeft, UInt8.toNat_toUInt64,
    UInt16.toNat_toUInt64, UInt32.toNat_toUInt64, UInt64.reduceToNat, Nat.reduceMod]
  rw [hshift (x := input.error.toNat) (by omega), hshift (x := input.ip.toNat) (by omega),
    hshift (x := input.weight.toNat) (by omega), or_eq_add (b := input.ip.toNat * _) 56
    (by omega) (by omega), or_eq_add (b := input.weight.toNat * _) 48 (by omega) (by omega),
    or_eq_add 32 (by omega) hblock]

section

variable (input : Input)

/-- The error is read back from the word. -/
theorem error_encode : ((encode input).b >>> 56).toUInt8 = input.error := by
  have hb := toNat_b_encode input
  have herror := input.error.toNat_lt
  have hip := input.ip.toNat_lt
  have hweight := input.weight.toNat_lt
  have hblock := input.block.toNat_lt
  apply UInt8.toNat_inj.mp
  simp only [UInt64.toNat_toUInt8, UInt64.toNat_shiftRight, Nat.shiftRight_eq_div_pow,
    UInt64.reduceToNat, Nat.reduceMod]
  omega

/-- So is the last part of the address. -/
theorem ip_encode : ((encode input).b >>> 48).toUInt8 = input.ip := by
  have hb := toNat_b_encode input
  have hip := input.ip.toNat_lt
  have hweight := input.weight.toNat_lt
  have hblock := input.block.toNat_lt
  apply UInt8.toNat_inj.mp
  simp only [UInt64.toNat_toUInt8, UInt64.toNat_shiftRight, Nat.shiftRight_eq_div_pow,
    UInt64.reduceToNat, Nat.reduceMod]
  omega

/-- So is the weight. -/
theorem weight_encode :
    (((encode input).b >>> 32) &&& WEIGHT_MASK.toUInt64).toUInt16 = input.weight := by
  have hb := toNat_b_encode input
  have hweight := input.weight.toNat_lt
  have hblock := input.block.toNat_lt
  have hmask : WEIGHT_MASK.toUInt64.toNat = 2 ^ 16 - 1 := rfl
  apply UInt16.toNat_inj.mp
  simp only [UInt64.toNat_toUInt16, UInt64.toNat_and, hmask, Nat.and_two_pow_sub_one_eq_mod,
    UInt64.toNat_shiftRight, Nat.shiftRight_eq_div_pow, UInt64.reduceToNat, Nat.reduceMod]
  omega

/-- And so is the block. -/
theorem block_encode : (encode input).b &&& BLOCK_MASK = input.block.toUInt64 := by
  have hb := toNat_b_encode input
  have hblock := input.block.toNat_lt
  have hmask : BLOCK_MASK.toNat = 2 ^ 32 - 1 := rfl
  apply UInt64.toNat_inj.mp
  simp only [UInt64.toNat_and, hmask, Nat.and_two_pow_sub_one_eq_mod, UInt32.toNat_toUInt64]
  omega

end

/-- The two digits of a byte, which the table has for its halves. -/
theorem cs_byte (n : Nat) :
    cs ((UInt8.ofNat n >>> 4) &&& 0xf) = (Nat.digitChar (n / 16 % 16)).toUpper ∧
      cs (UInt8.ofNat n &&& 0xf) = (Nat.digitChar (n % 16)).toUpper := by
  have htable : ∀ d < 16, "0123456789ABCDEF".toList.getD d '\x00' = (Nat.digitChar d).toUpper := by
    decide
  have hmask : (0xf : UInt8).toNat = 2 ^ 4 - 1 := rfl
  have hhigh : ((UInt8.ofNat n >>> 4) &&& 0xf).toNat = n / 16 % 16 := by
    rw [UInt8.toNat_and, hmask, Nat.and_two_pow_sub_one_eq_mod, UInt8.toNat_shiftRight,
      Nat.shiftRight_eq_div_pow, UInt8.toNat_ofNat']
    show n % 2 ^ 8 / 2 ^ 4 % 2 ^ 4 = _
    omega
  have hlow : (UInt8.ofNat n &&& 0xf).toNat = n % 16 := by
    rw [UInt8.toNat_and, hmask, Nat.and_two_pow_sub_one_eq_mod, UInt8.toNat_ofNat']
    omega
  unfold cs
  rw [hhigh, hlow]
  exact ⟨htable _ (Nat.mod_lt _ (by decide)), htable _ (Nat.mod_lt _ (by decide))⟩

/-- `i2s` prints eight hexadecimal digits. -/
theorem i2s_eq (x : UInt32) : i2s x = hex 8 x.toNat := by
  have hlt : x.toNat < 16 ^ (7 + 1) := x.toNat_lt
  unfold i2s word32
  rw [hex_eq hlt]
  generalize x.toNat = n
  simp only [Bytes.encode, List.foldl_cons, List.foldl_nil, cs_byte, Nat.div_div_eq_div_mul]
  simp [List.range_succ]

/-- What is printed in the place of the weight for an error. -/
theorem toInt_atoi_BAD : (atoi BAD).toInt = -65535 := by decide

/-- **Printing what was packed.**  The parts of the word do not overlap, so each is read back: the
    text has the numbers of the input, or `-65535` in the place of the weight for an error. -/
theorem decode_encode (input : Input) : decode (encode input) =
    { topic := decimal input.ip.toNat
      payload := pattern input.serial.toNat (decimal input.ip.toNat)
        (if input.error ≠ 0 then -65535 else input.weight.toInt16.toInt)
        (if input.block ≠ 0 then hex 8 input.block.toNat else "NONE".toList) } := by
  have hblock : input.block.toUInt64 ≠ 0 ↔ input.block ≠ 0 := by
    rw [Ne, Ne, ← UInt64.toNat_inj, ← UInt32.toNat_inj, UInt32.toNat_toUInt64]
    rfl
  simp only [decode, retrieveTopic, error_encode, ip_encode, weight_encode, block_encode,
    toInt_atoi_BAD, hblock, UInt32.toUInt32_toUInt64, i2s_eq]
  rfl

/-! ### The text buffer -/

/-- The size of `buf` in `Output::load`. -/
def bufSize : Nat := 64

/-- The weight that is printed for a word. -/
def printedWeight (x : UInt64) : Int :=
  if (x >>> 56).toUInt8 ≠ 0 then (atoi BAD).toInt
  else ((x >>> 32) &&& WEIGHT_MASK.toUInt64).toUInt16.toInt16.toInt

/-- The length of the text: the fixed parts have 40 characters. -/
theorem length_pattern (serial : Nat) (topic : List Char) (weight : Int) (id : List Char) :
    (pattern serial topic weight id).length
      = 40 + (decimal serial).length + topic.length + (decimal weight).length + id.length := by
  have hserial : "\x7b\"serial\":".toList.length = 10 := by decide
  have htopic : ",\"topic\":\"".toList.length = 10 := by decide
  have hweight : "\",\"weight\":".toList.length = 11 := by decide
  have hid : ",\"id\":\"".toList.length = 7 := by decide
  have hend : "\"\x7d".toList.length = 2 := by decide
  unfold pattern
  rw [List.length_append, List.length_append, List.length_append, List.length_append,
    List.length_append, List.length_append, List.length_append, List.length_append, hserial, htopic,
    hweight, hid, hend]
  omega

/-- A weight is printed with six characters at most; the text of an error has as many. -/
theorem length_printedWeight_le (x : UInt64) : (decimal (printedWeight x)).length ≤ 6 := by
  unfold printedWeight
  split_ifs
  · decide
  · -- a `short` has five digits and a sign at most
    generalize ((x >>> 32) &&& WEIGHT_MASK.toUInt64).toUInt16.toInt16 = w
    have hlow := w.le_toInt
    have hhigh := w.toInt_lt
    have hdigits : (Nat.toDigits 10 w.toInt.natAbs).length ≤ 5 :=
      (Nat.length_toDigits_le_iff (by decide) (by decide)).mpr (by omega)
    unfold decimal
    split_ifs
    · rw [List.length_cons]
      omega
    · omega

/-- The text with numbers as long as the fields allow: without a block it fits into the buffer, and
    with one if the three numbers have 15 characters at most. -/
theorem pattern_fits {serial : Nat} {topic : List Char} {weight : Int} {id : List Char}
    {block : Prop} [Decidable block] (hserial : (decimal serial).length ≤ 10)
    (htopic : topic.length ≤ 3) (hweight : (decimal weight).length ≤ 6) (hid : id.length = 8) :
    (pattern serial topic weight (if block then id else "NONE".toList)).length + 1 ≤ bufSize ↔
      ¬ block ∨ (decimal serial).length + topic.length + (decimal weight).length ≤ 15 := by
  have hnone : "NONE".toList.length = 4 := rfl
  rw [length_pattern, bufSize]
  by_cases hblock : block
  · rw [if_pos hblock, hid]
    simp only [hblock, not_true_eq_false, false_or]
    omega
  · rw [if_neg hblock, hnone]
    exact iff_of_true (by omega) (.inl hblock)

/-- **The text and its buffer.**  Without a block the text always fits.  With one it fits exactly if
    the serial, the topic and the weight are printed with 15 characters at most. -/
theorem payload_fits (data : Data) :
    (decode data).payload.length + 1 ≤ bufSize ↔ data.b &&& BLOCK_MASK = 0 ∨
      (decimal data.a.toNat).length + (retrieveTopic data.b).length
        + (decimal (printedWeight data.b)).length ≤ 15 := by
  have hpayload : (decode data).payload = pattern data.a.toNat (retrieveTopic data.b)
      (printedWeight data.b) (if data.b &&& BLOCK_MASK ≠ 0 then
        i2s (data.b &&& BLOCK_MASK).toUInt32 else "NONE".toList) := rfl
  have hserial : (decimal data.a.toNat).length ≤ 10 :=
    length_decimal_le (by decide) (data.a.toNat_lt.trans (by decide))
  have htopic : (retrieveTopic data.b).length ≤ 3 :=
    length_decimal_le (by decide) ((UInt8.toNat_lt _).trans (by decide))
  have hid : (i2s (data.b &&& BLOCK_MASK).toUInt32).length = 8 := rfl
  rw [hpayload, pattern_fits hserial htopic (length_printedWeight_le data.b) hid, not_not]

/-- The largest serial, topic and block, with an error: 68 bytes for a buffer of 64. -/
theorem payload_overflows :
    (decode (encode ⟨1, 255, 0, 4294967295, 4294967295⟩)).payload.length + 1 = bufSize + 4 := by
  decide +kernel

/-- **The buffer, on the fields.**  What was packed with a block fits exactly if the serial, the
    address and the weight have 15 digits together, one for a minus sign included: `Nat.log 10` is
    one less than the number of the digits.  An error is printed as `-65535`. -/
theorem payload_fits_encode (input : Input) :
    (decode (encode input)).payload.length + 1 ≤ bufSize ↔ input.block = 0 ∨
      Nat.log 10 input.serial.toNat + Nat.log 10 input.ip.toNat
        + (if input.error ≠ 0 then 5
            else Nat.log 10 input.weight.toInt16.toInt.natAbs
              + if input.weight.toInt16.toInt < 0 then 1 else 0) ≤ 12 := by
  have hserial : (decimal input.serial.toNat).length ≤ 10 :=
    length_decimal_le (by decide) (input.serial.toNat_lt.trans (by decide))
  have htopic : (decimal input.ip.toNat).length ≤ 3 :=
    length_decimal_le (by decide) (input.ip.toNat_lt.trans (by decide))
  have hweight : (decimal (if input.error ≠ 0 then -65535 else input.weight.toInt16.toInt)).length
      ≤ 6 := by
    have hprinted := length_printedWeight_le (encode input).b
    rwa [printedWeight, error_encode, weight_encode, toInt_atoi_BAD] at hprinted
  have hid : (hex 8 input.block.toNat).length = 8 := by rw [← i2s_eq]; rfl
  rw [decode_encode, pattern_fits hserial htopic hweight hid, not_not, length_decimal,
    length_decimal, Int.natAbs_natCast, Int.natAbs_natCast, if_neg (by omega), if_neg (by omega)]
  apply or_congr_right
  by_cases herror : input.error ≠ 0
  · have hbad : (decimal (-65535)).length = 6 := by decide
    rw [if_pos herror, if_pos herror, hbad]
    omega
  · rw [if_neg herror, if_neg herror, length_decimal]
    omega

end Codec

end CPlayground.Relay
