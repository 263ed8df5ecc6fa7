import CPlayground.Lib.Loop
import CPlayground.Relay.Codec

namespace CPlayground.Relay

open CPlayground.CString CPlayground.Loop
open Codec (Block kDataSize)

/-!
# `Secure`: the records of the relay

A record is the secret word, a random mask and twelve bytes of data, with everything but the mask
combined with the mask by exclusive or.  `Encrypt` and `Decrypt` run the same loop over the record:
it begins behind the mask, wraps around at the end and stops at the mask.

* `Secure.cipher_eq` — the loop ends, and it changes every byte but the mask once.
* `secure_bijection` — `Decrypt` accepts exactly the strings that `Encrypt` makes, and returns the
  data that they were made from.
-/

namespace Secure

/-- `kDataLen`. -/
def kDataLen : Nat := 4 + kDataSize

/-- `"SUN"`. -/
def SECRET : List UInt8 := [83, 85, 78]

/-- The length of the secret word. -/
def SECRET_LEN : Nat := 3

/-- The loop of `Encrypt` and `Decrypt`: `for (; i != SECRET_LEN; ++i)`, from `i` on. -/
def cipher (mask : UInt8) (i : Nat) (p : List UInt8) : Option (List UInt8) :=
  (run (fun s => s.1 ≠ SECRET_LEN) (body mask) kDataLen (i, p)).map Prod.snd
where
  /-- One round of the loop. -/
  body (mask : UInt8) : Nat × List UInt8 → Option (Nat × List UInt8)
    | (i, p) =>
      let i := if i = kDataLen then 0 else i
      if i < p.length then some (i + 1, p.modify i (· ^^^ mask)) else none

/-- `Secure::Encrypt`, with the byte that `entropy` returns. -/
def encrypt (data : Block) (mask : UInt8) : Option (List UInt8) :=
  let res := SECRET ++ List.replicate (kDataLen - SECRET_LEN) 0   -- `resize`
  let res := res.take (SECRET_LEN + 1) ++ data.1 ++ res.drop (SECRET_LEN + 1 + data.1.length)
  cipher mask (SECRET_LEN + 1) (res.set SECRET_LEN mask)

/-- What `Decrypt` leaves behind: its result, the string and the memory for the data. -/
structure Decrypted where
  ok : Bool
  s : List UInt8
  data : List UInt8

/-- `Secure::Decrypt`, which works on the string itself. -/
def decrypt (s data : List UInt8) : Option Decrypted :=
  if s.length = kDataLen then
    (cipher (s.getD SECRET_LEN 0) (SECRET_LEN + 1) s).map fun s =>
      if strncmpEq 0 SECRET_LEN s SECRET then
        ⟨true, s, (s.drop (SECRET_LEN + 1)).take data.length⟩
      else ⟨false, s, data⟩
  else some ⟨false, s, data⟩

/-! ### The loop -/

variable {mask : UInt8} {p : List UInt8}

/-- The positions that the loop has changed when it has come to `i`. -/
def Seen (i j : Nat) : Prop :=
  (i ≤ SECRET_LEN ∧ (j < i ∨ SECRET_LEN < j)) ∨ (SECRET_LEN < i ∧ SECRET_LEN < j ∧ j < i)

instance (i j : Nat) : Decidable (Seen i j) :=
  inferInstanceAs (Decidable ((_ ∧ (_ ∨ _)) ∨ (_ ∧ _ ∧ _)))

/-- The record when the loop has come to `i`. -/
def partly (mask : UInt8) (i : Nat) (p : List UInt8) : List UInt8 :=
  p.mapIdx fun j b => if Seen i j then b ^^^ mask else b

/-- The number of rounds from `i` on. -/
def rounds (i : Nat) : Nat :=
  if i ≤ SECRET_LEN then SECRET_LEN - i else SECRET_LEN + kDataLen - i

/-- Changing a byte that was not changed before. -/
theorem modify_partly {i k : Nat} (hnew : ¬ Seen i k)
    (hseen : ∀ j < p.length, Seen (k + 1) j ↔ Seen i j ∨ j = k) :
    (partly mask i p).modify k (· ^^^ mask) = partly mask (k + 1) p := by
  apply List.ext_getElem
  · simp [partly]
  · intro j hj hj'
    have hlt : j < p.length := by simpa [partly] using hj'
    simp only [List.getElem_modify, partly, List.getElem_mapIdx, hseen j hlt]
    by_cases hjk : k = j
    · subst hjk
      simp [hnew]
    · simp [hjk, Ne.symm hjk]

/-- One round, which wraps around at the end of the record, changes one byte more, and comes nearer
    to the mask. -/
theorem body_partly {i : Nat} (hi : i ≤ kDataLen) (hne : i ≠ SECRET_LEN)
    (hp : p.length = kDataLen) :
    ∃ k ≤ kDataLen, cipher.body mask (i, partly mask i p) = some (k, partly mask k p) ∧
      rounds k < rounds i := by
  have hlen : (partly mask i p).length = kDataLen := by simp [partly, hp]
  have hsecret : SECRET_LEN = 3 := rfl
  have hdata : kDataLen = 16 := rfl
  simp only [cipher.body, hlen]
  by_cases hend : i = kDataLen
  · subst hend
    refine ⟨1, by decide, ?_, by decide⟩
    rw [if_pos rfl, if_pos (by decide), modify_partly (by decide)]
    intro j hj
    unfold Seen
    omega
  · refine ⟨i + 1, by omega, ?_, ?_⟩
    · rw [if_neg hend, if_pos (by omega), modify_partly]
      · unfold Seen
        omega
      · intro j hj
        unfold Seen
        omega
    · unfold rounds
      split_ifs <;> omega

/-- The record with every byte but the mask changed. -/
def veil (mask : UInt8) (p : List UInt8) : List UInt8 :=
  p.mapIdx fun j b => if j = SECRET_LEN then b else b ^^^ mask

/-- **The loop** ends, and changes every byte but the mask once: it begins behind the mask, wraps
    around at the end of the record and stops at the mask. -/
theorem cipher_eq (hp : p.length = kDataLen) :
    cipher mask (SECRET_LEN + 1) p = some (veil mask p) := by
  have hstart : p = partly mask (SECRET_LEN + 1) p := by
    have hnone : ∀ j, ¬ Seen (SECRET_LEN + 1) j := by
      intro j
      unfold Seen
      omega
    apply List.ext_getElem
    · simp [partly]
    · intro j hj hj'
      simp [partly, hnone]
  have htotal : ∃ t, run (fun s => decide (s.1 ≠ SECRET_LEN)) (cipher.body mask) kDataLen
      (SECRET_LEN + 1, p) = some t ∧ (t.1 ≤ kDataLen ∧ t.2 = partly mask t.1 p) ∧
        decide (t.1 ≠ SECRET_LEN) = false := by
    apply run_total (I := fun s : Nat × List UInt8 => s.1 ≤ kDataLen ∧ s.2 = partly mask s.1 p)
      (v := fun s => rounds s.1)
    · rintro ⟨i, q⟩ ⟨hi, hq⟩ hne
      have hq : q = partly mask i p := hq
      obtain ⟨k, hk, hbody, hlt⟩ := body_partly hi (of_decide_eq_true hne) hp
      exact ⟨(k, partly mask k p), hq ▸ hbody, ⟨hk, rfl⟩, hlt⟩
    · exact ⟨show SECRET_LEN + 1 ≤ kDataLen by decide, hstart⟩
    · show rounds (SECRET_LEN + 1) ≤ kDataLen
      decide
  obtain ⟨⟨i, q⟩, hrun, ⟨-, hq⟩, hstop⟩ := htotal
  have hi : i = SECRET_LEN := by simpa using hstop
  -- at the mask, every other position has been seen
  have hveil : partly mask SECRET_LEN p = veil mask p := by
    have hseen : ∀ j, Seen SECRET_LEN j ↔ ¬ j = SECRET_LEN := by
      intro j
      unfold Seen
      omega
    simp [partly, veil, hseen]
  rw [cipher, hrun, Option.map_some, hq, hi, hveil]

/-! ### Records -/

/-- The mask does not change the length. -/
@[simp] theorem length_veil : (veil mask p).length = p.length := by simp [veil]

/-- **The mask taken twice** gives the record back. -/
theorem veil_veil : veil mask (veil mask p) = p := by
  apply List.ext_getElem
  · simp
  · intro j hj hj'
    simp only [veil, List.getElem_mapIdx]
    by_cases hmask : j = SECRET_LEN
    · rw [if_pos hmask, if_pos hmask]
    · rw [if_neg hmask, if_neg hmask, UInt8.xor_assoc, UInt8.xor_self, UInt8.xor_zero]

/-- The mask itself stays as it is. -/
theorem getD_veil : (veil mask p).getD SECRET_LEN 0 = p.getD SECRET_LEN 0 := by
  simp [veil, List.getD_eq_getElem?_getD, List.getElem?_mapIdx]

/-- The record before and after the loop of `Encrypt`. -/
theorem encrypt_eq (d : Block) (mask : UInt8) :
    encrypt d mask = some (veil mask (SECRET ++ mask :: d.1)) := by
  have hd : d.1.length = 12 := d.2
  have hres : ((SECRET ++ List.replicate (kDataLen - SECRET_LEN) 0).take (SECRET_LEN + 1) ++ d.1 ++
      (SECRET ++ List.replicate (kDataLen - SECRET_LEN) 0).drop (SECRET_LEN + 1 + d.1.length)).set
        SECRET_LEN mask = SECRET ++ mask :: d.1 := by
    rw [hd]
    simp [SECRET, SECRET_LEN, kDataLen, kDataSize]
  rw [encrypt, hres, cipher_eq]
  simp [SECRET, hd, kDataLen, kDataSize]

/-- A string of another length is not a record. -/
theorem decrypt_of_length {s data : List UInt8} (h : s.length ≠ kDataLen) :
    decrypt s data = some ⟨false, s, data⟩ := if_neg h

/-- `Decrypt` on a string of the right length. -/
theorem decrypt_eq {s data : List UInt8} (h : s.length = kDataLen) :
    decrypt s data = some
      (if SECRET <+: veil (s.getD SECRET_LEN 0) s then
        ⟨true, veil (s.getD SECRET_LEN 0) s,
          ((veil (s.getD SECRET_LEN 0) s).drop (SECRET_LEN + 1)).take data.length⟩
      else ⟨false, veil (s.getD SECRET_LEN 0) s, data⟩) := by
  have hword : ∀ t, strncmpEq 0 SECRET_LEN t SECRET = true ↔ SECRET <+: t := fun t =>
    strncmpEq_iff (t := SECRET) (by decide)
  simp only [decrypt, if_pos h, cipher_eq h, Option.map_some, hword]

/-- `Decrypt` on a record gives its block back, whatever was in the target before. -/
theorem decrypt_of_encrypt {d : Block} {mask : UInt8} {s : List UInt8} (h : encrypt d mask = some s)
    (data : Block) :
    s.length = kDataLen ∧ decrypt s data.1 = some ⟨true, SECRET ++ mask :: d.1, d.1⟩ := by
  have hd : d.1.length = 12 := d.2
  have hplain : (SECRET ++ mask :: d.1).length = kDataLen := by
    simp [SECRET, hd, kDataLen, kDataSize]
  rw [encrypt_eq, Option.some.injEq] at h
  subst h
  have hlen : (veil mask (SECRET ++ mask :: d.1)).length = kDataLen := by rw [length_veil, hplain]
  have hmask : (veil mask (SECRET ++ mask :: d.1)).getD SECRET_LEN 0 = mask := by
    rw [getD_veil]
    rfl
  have htake : d.1.take data.1.length = d.1 := List.take_of_length_le (by rw [d.2, data.2])
  refine ⟨hlen, ?_⟩
  rw [decrypt_eq hlen, hmask, veil_veil, if_pos (List.prefix_append _ _)]
  simp [SECRET, SECRET_LEN, htake]

/-- What `Decrypt` accepts is a record: the mask in it and the bytes that were unveiled make the
    same record again. -/
theorem encrypt_of_decrypt {s : List UInt8} {data : Block} {r : Decrypted}
    (h : decrypt s data.1 = some r) (hok : r.ok = true) :
    s.length = kDataLen ∧ ∃ e : UInt8 × Block, encrypt e.2 e.1 = some s := by
  by_cases hlen : s.length = kDataLen
  · refine ⟨hlen, ?_⟩
    rw [decrypt_eq hlen, Option.some.injEq] at h
    split_ifs at h with hsecret
    · -- the mask is the fourth byte of the string, the data are what follows it
      obtain ⟨rest, hrest⟩ := hsecret
      have hmask : (SECRET ++ rest).getD SECRET_LEN 0 = s.getD SECRET_LEN 0 := by
        rw [hrest, getD_veil]
      have hlength : (SECRET ++ rest).length = kDataLen := by rw [hrest, length_veil, hlen]
      cases rest with
      | nil => cases hlength
      | cons mask d =>
        have hmask : s.getD SECRET_LEN 0 = mask := hmask.symm
        have hd : d.length = kDataSize := by
          simpa [SECRET, kDataLen, kDataSize] using hlength
        refine ⟨(mask, ⟨d, hd⟩), ?_⟩
        rw [encrypt_eq, hrest, hmask, veil_veil]
    · subst h
      cases hok
  · rw [decrypt_of_length hlen, Option.some.injEq] at h
    subst h
    cases hok

/-- **Secure records.**  `Encrypt` and `Decrypt` always return.  Of what `Encrypt` makes, `Decrypt`
    returns the data; and it accepts exactly the strings of 16 bytes that `Encrypt` makes from some
    mask and data, which are the only ones, and leaves these behind. -/
theorem secure_bijection (d data : Block) (mask : UInt8) (s : List UInt8) :
    (∃ s s', encrypt d mask = some s ∧ decrypt s data.1 = some ⟨true, s', d.1⟩) ∧
      ∃ r, decrypt s data.1 = some r ∧
        (r.ok = true ↔ s.length = kDataLen ∧ ∃ e : UInt8 × Block, encrypt e.2 e.1 = some s) ∧
        (r.ok = true → ∃! e : UInt8 × Block, encrypt e.2 e.1 = some s) ∧
        ∀ e : UInt8 × Block, encrypt e.2 e.1 = some s →
          r.s = SECRET ++ e.1 :: e.2.1 ∧ r.data = e.2.1 := by
  refine ⟨⟨_, _, encrypt_eq d mask, (decrypt_of_encrypt (encrypt_eq d mask) data).2⟩, ?_⟩
  -- `decrypt` has a result for strings of every length
  obtain ⟨r, hr⟩ : ∃ r, decrypt s data.1 = some r := by
    by_cases hlen : s.length = kDataLen
    · exact ⟨_, decrypt_eq hlen⟩
    · exact ⟨_, decrypt_of_length hlen⟩
  -- if the string is a record, the result is that of its block and mask
  have hreport : ∀ e : UInt8 × Block, encrypt e.2 e.1 = some s →
      r = ⟨true, SECRET ++ e.1 :: e.2.1, e.2.1⟩ := by
    intro e he
    have heq := (decrypt_of_encrypt he data).2
    rw [hr, Option.some.injEq] at heq
    exact heq
  refine ⟨r, hr, ⟨encrypt_of_decrypt hr, ?_⟩, ?_, ?_⟩
  · rintro ⟨-, e, he⟩
    rw [hreport e he]
  · intro hok
    obtain ⟨-, e, he⟩ := encrypt_of_decrypt hr hok
    -- two blocks with their masks that give the same record have the same result
    refine ⟨e, he, fun e' he' => ?_⟩
    have heq := (hreport e' he').symm.trans (hreport e he)
    simp only [Decrypted.mk.injEq, List.append_cancel_left_eq, List.cons.injEq, true_and] at heq
    exact Prod.ext heq.1.1 (Subtype.ext heq.2)
  · intro e he
    rw [hreport e he]
    exact ⟨rfl, rfl⟩

end Secure

end CPlayground.Relay
