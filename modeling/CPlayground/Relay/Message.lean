import CPlayground.Relay.Secure

namespace CPlayground.Relay

open CPlayground.CString
open Codec

/-!
# From the datagram to the payload

The collector parses a datagram `serial@block@weight` and the address that it came from, packs what
it has found and sends it as a record.  The relay decrypts the record, and the notifier prints what
is packed in it.

* `Message.parse_datagram` — what the collector finds in a datagram.
* `weight_message` — what is printed in the end are the numbers of the datagram.
-/

namespace Message

/-- `inet_ntoa`. -/
def inetNtoa (a b c d : UInt8) : List Char :=
  decimal a.toNat ++ '.' :: decimal b.toNat ++ '.' :: decimal c.toNat ++ '.' :: decimal d.toNat

/-- The datagram `serial@block@weight`. -/
def datagram (serial : UInt32) (block : Nat) (weight : Int) : List Char :=
  decimal serial.toNat ++ '@' :: decimal block ++ '@' :: decimal weight

/-- What `HandleGroupMsg` parses. -/
def parse (ip buf : List Char) : Input :=
  parseSerial (parseBlock (parseWeight (parseIp {} ip) buf) buf) buf

/-- The record that `HandleGroupMsg` hands over to `addPayload`. -/
def handleGroupMsg (ip buf : List Char) (mask : UInt8) : Option (List UInt8) :=
  Secure.encrypt (encode (parse ip buf)).block mask

/-! ### The numbers of a datagram -/

/-- A conversion to `unsigned` is taken modulo `2 ^ 32`. -/
theorem toNat_toUInt32_ofInt (z : Int) : (Int32.ofInt z).toUInt32.toNat = (z % 2 ^ 32).toNat :=
  BitVec.toNat_ofInt z

/-- The last part of an address is read back. -/
theorem toUInt8_atoi_decimal (d : UInt8) :
    ((atoi (decimal d.toNat)).toUInt32 &&& IP_MASK).toUInt8 = d := by
  have hd := d.toNat_lt
  have hmask : IP_MASK.toNat = 2 ^ 8 - 1 := rfl
  have hatoi : atoi (decimal d.toNat) = Int32.ofInt d.toNat :=
    atoi_decimal_end (by omega) (by omega)
  apply UInt8.toNat_inj.mp
  rw [hatoi, UInt32.toNat_toUInt8, UInt32.toNat_and, hmask, Nat.and_two_pow_sub_one_eq_mod,
    toNat_toUInt32_ofInt]
  omega

/-- A number below `2 ^ 31` is read back. -/
theorem toUInt32_atoi_decimal {n : Nat} (hn : n < 2 ^ 31) {rest : List Char}
    (hrest : ∀ c ∈ rest.head?, c.isDigit = false) :
    (atoi (decimal n ++ rest)).toUInt32 = UInt32.ofNat n := by
  apply UInt32.toNat_inj.mp
  rw [atoi_decimal (by omega) (by omega) hrest, toNat_toUInt32_ofInt, UInt32.toNat_ofNat']
  omega

/-- A weight of sixteen bits is read back, with its sign. -/
theorem toInt_atoi_decimal {w : Int} (hlow : -32768 ≤ w) (hhigh : w ≤ 32767) :
    ((atoi (decimal w)).toUInt32 &&& WEIGHT_MASK).toUInt16.toInt16.toInt = w := by
  have hmask : WEIGHT_MASK.toNat = 2 ^ 16 - 1 := rfl
  have hsigned : ∀ x : UInt16, x.toInt16.toInt = Int.bmod x.toNat (2 ^ 16) := fun x =>
    BitVec.toInt_eq_toNat_bmod x.toBitVec
  rw [atoi_decimal_end (by omega) (by omega), hsigned, UInt32.toNat_toUInt16, UInt32.toNat_and,
    hmask,
    Nat.and_two_pow_sub_one_eq_mod, toNat_toUInt32_ofInt, Int.bmod_def]
  split_ifs <;> omega

/-- A weight has at most five digits, so that it does not begin like the bad one. -/
theorem not_bad_decimal {w : Int} (hlow : -32768 ≤ w) (hhigh : w ≤ 32767) :
    ¬ BAD <+: decimal w := by
  intro hbad
  have hdigits : (Nat.toDigits 10 w.natAbs).length ≤ 5 :=
    (Nat.length_toDigits_le_iff (by decide) (by decide)).mpr (by omega)
  have hlen : (decimal w).length ≤ BAD.length := by
    have hsix : BAD.length = 6 := rfl
    unfold decimal
    split_ifs
    · rw [List.length_cons]
      omega
    · omega
  -- the two texts are the same, so they are read as the same number
  have heq : BAD = decimal w := hbad.eq_of_length_le hlen
  have hread := @numeral_decimal w [] (by simp)
  rw [List.append_nil, ← heq] at hread
  have hvalue : numeral BAD = (true, 65535) := by decide
  rw [hvalue, Prod.mk.injEq] at hread
  omega

/-! ### What is parsed -/

/-- `parseIp` takes the part behind the last dot. -/
theorem parseIp_inetNtoa (input : Input) (a b c d : UInt8) :
    parseIp input (inetNtoa a b c d) = { input with ip := d } := by
  have hdot : '.' ∉ decimal d.toNat := not_mem_decimal (by decide) (by decide)
  unfold parseIp inetNtoa
  rw [strrchr_append _ hdot]
  simp only [List.tail_cons, toUInt8_atoi_decimal]

/-- `parseSerial` reads the number at the beginning. -/
theorem parseSerial_datagram (input : Input) (serial : UInt32) (block : Nat) (weight : Int) :
    parseSerial input (datagram serial block weight) = { input with serial := serial } := by
  have hserial := serial.toNat_lt
  unfold parseSerial datagram
  rw [List.append_assoc, strtoull_decimal (by omega) (by simp)]
  simp

/-- `parseBlock` reads the number behind the first separator. -/
theorem parseBlock_datagram (input : Input) (serial : UInt32) {block : Nat}
    (hblock : block < 2 ^ 31) (weight : Int) :
    parseBlock input (datagram serial block weight)
      = { input with block := UInt32.ofNat block } := by
  have hsep : '@' ∉ decimal serial.toNat := not_mem_decimal (by decide) (by decide)
  unfold parseBlock datagram
  rw [List.append_assoc, List.cons_append, strchr_append hsep]
  simp only [List.tail_cons]
  rw [toUInt32_atoi_decimal hblock (by simp)]

/-- The text of the weight is looked for from the right. -/
theorem parseWeight_datagram (input : Input) (serial : UInt32) (block : Nat) (weight : Int) :
    parseWeight input (datagram serial block weight) =
      if BAD <+: decimal weight then { input with error := 1, weight := WEIGHT_MASK.toUInt16 }
      else { input with
        weight := ((atoi (decimal weight)).toUInt32 &&& WEIGHT_MASK).toUInt16 } := by
  have hsep : '@' ∉ decimal weight := not_mem_decimal (by decide) (by decide)
  have hbad : strncmpEq '\x00' BAD_LEN (decimal weight) BAD = true ↔ BAD <+: decimal weight :=
    strncmpEq_iff (t := BAD) (by decide)
  unfold parseWeight datagram
  rw [strrchr_append _ hsep]
  simp only [List.tail_cons, hbad]

/-- What is packed and printed of a datagram: the parser reads its numbers, they fit into the word,
    and the text has them again. -/
theorem decode_encode_parse (a b c octet : UInt8) (serial : UInt32) {block : Nat} {weight : Int}
    (hblock : block < 2 ^ 31)
    (hweight : weight = -65535 ∨ (-32768 ≤ weight ∧ weight ≤ 32767)) :
    decode (encode (parse (inetNtoa a b c octet) (datagram serial block weight))) =
      { topic := decimal octet.toNat
        payload := pattern serial.toNat (decimal octet.toNat) weight
          (if block = 0 then "NONE".toList else hex 8 block) } := by
  -- the text of the block: its number fits, so that it is `NONE` exactly for 0
  have hid : (if UInt32.ofNat block ≠ 0 then hex 8 (UInt32.ofNat block).toNat else "NONE".toList)
      = if block = 0 then "NONE".toList else hex 8 block := by
    have hval : (UInt32.ofNat block).toNat = block :=
      UInt32.toNat_ofNat_of_lt' (hblock.trans (by decide))
    have hzero : UInt32.ofNat block = 0 ↔ block = 0 := by
      rw [← UInt32.toNat_inj, hval]
      rfl
    rw [ite_not, hval]
    simp only [hzero]
  unfold parse
  rw [decode_encode, parseSerial_datagram, parseBlock_datagram _ _ hblock, parseWeight_datagram,
    parseIp_inetNtoa]
  -- the code for a bad weight, or a weight of 16 bits
  rcases hweight with rfl | ⟨hlow, hhigh⟩
  · rw [if_pos (by decide)]
    simp only [hid]
    rfl
  · rw [if_neg (not_bad_decimal hlow hhigh)]
    simp only [hid, toInt_atoi_decimal hlow hhigh]
    rfl

/-- **A weight message, end to end.**  The record that the collector makes of a datagram is accepted
    by the relay, and what is printed of it are the serial number and the weight of the datagram,
    the last number of the address and the block in hexadecimal digits. -/
theorem weight_message (a b c octet : UInt8) (serial : UInt32) (block : Nat) (weight : Int)
    (mask : UInt8) (data : Block) (hblock : block < 2 ^ 31)
    (hweight : weight = -65535 ∨ (-32768 ≤ weight ∧ weight ≤ 32767)) :
    ∃ s s' d,
      handleGroupMsg (inetNtoa a b c octet) (datagram serial block weight) mask = some s ∧
      Secure.decrypt s data.1 = some ⟨true, s', d⟩ ∧
      decode (Data.ofBytes d) =
        { topic := decimal octet.toNat
          payload := pattern serial.toNat (decimal octet.toNat) weight
            (if block = 0 then "NONE".toList else hex 8 block) } := by
  have hencrypt := Secure.encrypt_eq
    (encode (parse (inetNtoa a b c octet) (datagram serial block weight))).block mask
  have hdecrypt := (Secure.decrypt_of_encrypt hencrypt data).2
  refine ⟨_, _, _, hencrypt, hdecrypt, ?_⟩
  rw [Data.ofBytes_block, decode_encode_parse a b c octet serial hblock hweight]

/-- The datagram of the test in the source. -/
theorem weight_message_printed : ∃ s s' d,
    handleGroupMsg "192.168.10.182".toList "12@179@-345".toList 0x5a = some s ∧
    Secure.decrypt s (List.replicate 12 0) = some ⟨true, s', d⟩ ∧
    decode (Data.ofBytes d) =
      { topic := "182".toList
        payload := ("\x7b\"serial\":12,\"topic\":\"182\",\"weight\":-345," ++
          "\"id\":\"000000B3\"\x7d").toList } := by
  have hip : "192.168.10.182".toList = inetNtoa 192 168 10 182 := by decide
  have htext : "12@179@-345".toList = datagram 12 179 (-345) := by decide
  have hprint : ("\x7b\"serial\":12,\"topic\":\"182\",\"weight\":-345," ++
      "\"id\":\"000000B3\"\x7d").toList = pattern 12 (decimal 182) (-345) (hex 8 179) := by decide
  rw [hip, htext, hprint]
  exact weight_message 192 168 10 182 12 179 (-345) 0x5a ⟨List.replicate 12 0, rfl⟩ (by decide)
    (.inr (by decide))

end Message

end CPlayground.Relay
