import CPlayground.Lib.AddressSpace
import CPlayground.Lib.Memory
import CPlayground.Trivial.ZeroByte

namespace CPlayground.Ptrace

open AddressSpace Bytes Memory

/-!
# `ptrace-syscall.c`

Reading and changing the memory of another process, which is only possible in words of eight bytes.

* `peekData_eq` — `peek_data` reads the bytes it is asked for.
* `pokeData_eq` — `poke_data` writes them, and the rest of the last word with what was in the
  variable before.
* `editing_exact` — so it changes nothing else, in whatever memory, exactly if the length is a
  multiple of eight.
* `longHasZeroByte_iff`, `zero_bytes` — `dump_string` stops at a word with a byte `0` or `0x80`.
-/

/-! ### `peek_data` and `poke_data` -/

/-- `ptrace(PTRACE_PEEKDATA, child, addr, 0)`: the eight bytes of a `long`. -/
def peek (mem : Space) (addr : UInt64) : List UInt8 := bytesAt mem addr 8

/-- `ptrace(PTRACE_POKEDATA, child, addr, data)`. -/
def poke (mem : Space) (addr : UInt64) (data : List UInt8) : Space := patch mem addr data

/-- The loop of `peek_data`, from `i` on, with `n` rounds to go. -/
def peekWords (mem : Space) (addr : UInt64) : Nat → Nat → Mem → Option Mem
  | 0,     _, str => some str
  | n + 1, i, str =>
      (memcpy str (i * 8) ((peek mem (addr + UInt64.ofNat (i * 8))).map some) 8).bind
        (peekWords mem addr n (i + 1))

/-- `peek_data(child, addr, str, len)`. -/
def peekData (mem : Space) (addr : UInt64) (str : Mem) (len : Nat) : Option Mem :=
  (peekWords mem addr (len / 8) 0 str).bind fun str =>
    (if len % 8 ≠ 0 then
      memcpy str (len / 8 * 8) ((peek mem (addr + UInt64.ofNat (len / 8 * 8))).map some) (len % 8)
    else some str).bind fun str => write str len 0

/-- `memcpy(&data, p, n)` with `p = str + i`: the bytes of `data` behind the first `n` stay. -/
def fetch (data str : List UInt8) (i n : Nat) : Option (List UInt8) :=
  if i + n ≤ str.length then some ((str.drop i).take n ++ data.drop n) else none

/-- The loop of `poke_data`, from `i` on, with `n` rounds to go: the memory and `data`. -/
def pokeWords (addr : UInt64) (str : List UInt8) :
    Nat → Nat → Space → List UInt8 → Option (Space × List UInt8)
  | 0,     _, mem, data => some (mem, data)
  | n + 1, i, mem, data => (fetch data str (i * 8) 8).bind fun data =>
      pokeWords addr str n (i + 1) (poke mem (addr + UInt64.ofNat (i * 8)) data) data

/-- `poke_data(child, addr, str, len)`; `data` is not initialised, so it may be anything. -/
def pokeData (mem : Space) (addr : UInt64) (str : List UInt8) (len : Nat) (data : List UInt8) :
    Option Space :=
  (pokeWords addr str (len / 8) 0 mem data).bind fun (mem, data) =>
    if len % 8 ≠ 0 then
      (fetch data str (len / 8 * 8) (len % 8)).map (poke mem (addr + UInt64.ofNat (len / 8 * 8)))
    else some mem

variable {mem : Space} {addr b : UInt64} {n i k len : Nat} {str data : List UInt8}

/-! ### Reading -/

/-- Up to eight bytes are copied behind those that are there already. -/
theorem memcpy_peek {rest : Mem} (hn : n ≤ 8) (hrest : n ≤ rest.length) :
    memcpy ((bytesAt mem addr k).map some ++ rest) k ((peek mem (addr + UInt64.ofNat k)).map some) n
      = some ((bytesAt mem addr (k + n)).map some ++ rest.drop n) := by
  have hword : (peek mem (addr + UInt64.ofNat k)).map some
      = (bytesAt mem (addr + UInt64.ofNat k) n).map some
        ++ ((peek mem (addr + UInt64.ofNat k)).drop n).map some := by
    rw [← List.map_append, ← take_bytesAt mem _ hn, ← peek, List.take_append_drop]
  have hcopy := memcpy_append ((bytesAt mem addr k).map some) (rest.take n) (rest.drop n)
    ((bytesAt mem (addr + UInt64.ofNat k) n).map some)
    (((peek mem (addr + UInt64.ofNat k)).drop n).map some) (by simp [hrest])
  rw [List.length_map, length_bytesAt, List.length_map, length_bytesAt, List.take_append_drop,
    ← hword] at hcopy
  rw [hcopy, bytesAt_add, List.map_append, List.append_assoc]

/-- The loop of `peek_data`. -/
theorem peekWords_eq {rest : Mem} (h : n * 8 ≤ rest.length) :
    peekWords mem addr n i ((bytesAt mem addr (i * 8)).map some ++ rest) =
      some ((bytesAt mem addr ((i + n) * 8)).map some ++ rest.drop (n * 8)) := by
  induction n generalizing i rest with
  | zero => simp [peekWords]
  | succ n ih =>
    have hrest : n * 8 ≤ (rest.drop 8).length := by
      rw [List.length_drop]
      omega
    rw [peekWords, memcpy_peek (by decide) (by omega), Option.bind_some, ← Nat.succ_mul, ih hrest,
      List.drop_drop, show i + 1 + n = i + (n + 1) by omega, show 8 + n * 8 = (n + 1) * 8 by omega]

/-- **`peek_data`** reads the bytes that it is asked for, word by word, and writes the terminator
    behind them; what it reads of the last word behind the range is dropped. -/
theorem peekData_eq {buf : Mem} (h : len < buf.length) :
    peekData mem addr buf len =
      some ((bytesAt mem addr len).map some ++ some 0 :: buf.drop (len + 1)) := by
  have hwords : peekWords mem addr (len / 8) 0 buf =
      some ((bytesAt mem addr (len / 8 * 8)).map some ++ buf.drop (len / 8 * 8)) := by
    have hloop : peekWords mem addr (len / 8) 0 ((bytesAt mem addr (0 * 8)).map some ++ buf) = _ :=
      peekWords_eq (by omega)
    rwa [Nat.zero_add, Nat.zero_mul] at hloop
  have htail : (if len % 8 ≠ 0 then
      memcpy ((bytesAt mem addr (len / 8 * 8)).map some ++ buf.drop (len / 8 * 8)) (len / 8 * 8)
        ((peek mem (addr + UInt64.ofNat (len / 8 * 8))).map some) (len % 8)
      else some ((bytesAt mem addr (len / 8 * 8)).map some ++ buf.drop (len / 8 * 8)))
      = some ((bytesAt mem addr len).map some ++ buf.drop len) := by
    have hsum : len / 8 * 8 + len % 8 = len := Nat.div_add_mod' len 8
    split
    · rw [memcpy_peek (by omega) (by rw [List.length_drop]; omega), List.drop_drop, hsum]
    · rw [show len / 8 * 8 = len by omega]
  rw [peekData, hwords, Option.bind_some, htail, Option.bind_some, List.drop_eq_getElem_cons h]
  have hwrite := write_append ((bytesAt mem addr len).map some) (buf[len]) (buf.drop (len + 1)) 0
  rwa [List.length_map, length_bytesAt] at hwrite

/-! ### Writing -/

/-- What is in `data` behind `n` words of the string. -/
def lastWord (str data : List UInt8) (n : Nat) : List UInt8 :=
  if n = 0 then data else (str.drop (n * 8 - 8)).take 8

/-- The bytes that `poke_data` writes behind the string: the rest of the last word. -/
def leftover (str : List UInt8) (len : Nat) (data : List UInt8) : List UInt8 :=
  if len % 8 = 0 then [] else (lastWord str data (len / 8)).drop (len % 8)

/-- A word behind those that were written. -/
theorem poke_patch {word : List UInt8} (hk : k ≤ str.length) (hlt : k + word.length < 2 ^ 64) :
    poke (patch mem addr (str.take k)) (addr + UInt64.ofNat k) word
      = patch mem addr (str.take k ++ word) := by
  have hlen : (str.take k).length = k := List.length_take_of_le hk
  have hpatch : patch (patch mem addr (str.take k)) (addr + UInt64.ofNat (str.take k).length) word
      = _ := patch_patch (by rw [hlen]; exact hlt)
  rwa [hlen] at hpatch

/-- The loop of `poke_data` writes the string word by word, and leaves the last word in `data`. -/
theorem pokeWords_eq (h : (i + n) * 8 ≤ str.length) (hlt : (i + n) * 8 < 2 ^ 64)
    (hdata : data.length = 8) :
    pokeWords addr str n i (patch mem addr (str.take (i * 8))) data =
      some (patch mem addr (str.take ((i + n) * 8)),
        if n = 0 then data else (str.drop ((i + n) * 8 - 8)).take 8) := by
  induction n generalizing i data with
  | zero => simp [pokeWords]
  | succ n ih =>
    have hword : ((str.drop (i * 8)).take 8).length = 8 := by
      rw [List.length_take, List.length_drop]
      omega
    have hnone : data.drop 8 = [] := List.drop_eq_nil_of_le (by omega)
    have hfetch : fetch data str (i * 8) 8 = some ((str.drop (i * 8)).take 8) := by
      rw [fetch, if_pos (by omega), hnone, List.append_nil]
    have hpoke : poke (patch mem addr (str.take (i * 8))) (addr + UInt64.ofNat (i * 8))
        ((str.drop (i * 8)).take 8) = patch mem addr (str.take ((i + 1) * 8)) := by
      rw [poke_patch (by omega) (by omega), ← List.take_add, Nat.succ_mul]
    rw [pokeWords, hfetch, Option.bind_some, hpoke, ih (by omega) (by omega) hword,
      if_neg (Nat.succ_ne_zero n), show i + 1 + n = i + (n + 1) by omega]
    split
    case isTrue hzero =>
      subst hzero
      rw [show (i + (0 + 1)) * 8 - 8 = i * 8 by omega]
    case isFalse => rfl

/-- The last word is filled up with what was in the variable before. -/
theorem length_lastWord (hdata : data.length = 8) (h : n * 8 ≤ str.length) :
    (lastWord str data n).length = 8 := by
  rw [lastWord]
  split
  · exact hdata
  · rw [List.length_take, List.length_drop]
    omega

/-- **`poke_data`** writes the string and the rest of the last word, which comes from the variable
    of the loop and not from the memory of the process. -/
theorem pokeData_eq (hstr : len ≤ str.length) (hlen : len < 2 ^ 31) (hdata : data.length = 8) :
    pokeData mem addr str len data
      = some (patch mem addr (str.take len ++ leftover str len data)) := by
  have hwords : pokeWords addr str (len / 8) 0 mem data
      = some (patch mem addr (str.take (len / 8 * 8)), lastWord str data (len / 8)) := by
    have hloop : pokeWords addr str (len / 8) 0 (patch mem addr (str.take (0 * 8))) data = _ :=
      pokeWords_eq (by omega) (by omega) hdata
    have hnone : patch mem addr [] = mem := rfl
    rwa [Nat.zero_add, Nat.zero_mul, List.take_zero, hnone] at hloop
  rw [pokeData, hwords, Option.bind_some, leftover]
  show (if len % 8 ≠ 0 then _ else _) = _
  by_cases hmod : len % 8 = 0
  · rw [if_neg (by omega), if_pos hmod, List.append_nil, show len / 8 * 8 = len by omega]
  · -- the bytes of the string come in front of what `data` has there from the word before
    have hsum : len / 8 * 8 + len % 8 = len := Nat.div_add_mod' len 8
    have hfetch : fetch (lastWord str data (len / 8)) str (len / 8 * 8) (len % 8)
        = some ((str.drop (len / 8 * 8)).take (len % 8)
          ++ (lastWord str data (len / 8)).drop (len % 8)) := by
      rw [fetch, if_pos (by omega)]
    have hword : (lastWord str data (len / 8)).length = 8 := length_lastWord hdata (by omega)
    have hlt : len / 8 * 8 + ((str.drop (len / 8 * 8)).take (len % 8)
        ++ (lastWord str data (len / 8)).drop (len % 8)).length < 2 ^ 64 := by
      rw [List.length_append, List.length_take, List.length_drop, List.length_drop, hword]
      omega
    rw [if_pos hmod, if_neg hmod, hfetch, Option.map_some, poke_patch (by omega) hlt,
      ← List.append_assoc, ← List.take_add, hsum]

/-- The bytes behind the string are the rest of its last word. -/
theorem length_leftover (hdata : data.length = 8) (hstr : len ≤ str.length) :
    (leftover str len data).length = (8 - len % 8) % 8 := by
  rw [leftover]
  split
  case isTrue hmod => rw [hmod, List.length_nil]
  case isFalse hmod =>
    rw [List.length_drop, length_lastWord hdata (by omega)]
    omega

/-- There are none of them exactly if the last word is full. -/
theorem leftover_eq_nil_iff (hdata : data.length = 8) (hstr : len ≤ str.length) :
    leftover str len data = [] ↔ len % 8 = 0 := by
  rw [← List.length_eq_zero_iff, length_leftover hdata hstr]
  omega

/-- The bytes that `poke_data` was asked to store are in the memory after it. -/
theorem bytesAt_pokeData (mem : Space) (addr : UInt64) (hstr : len ≤ str.length)
    (hlen : len < 2 ^ 31) (hdata : data.length = 8) :
    bytesAt (patch mem addr (str.take len ++ leftover str len data)) addr len = str.take len := by
  have htake : (str.take len).length = len := List.length_take_of_le hstr
  have hshort := length_leftover hdata hstr
  rw [bytesAt_patch (by rw [List.length_append]; omega) (by rw [List.length_append]; omega),
    List.take_append_of_le_length (Nat.le_of_eq htake.symm), List.take_take, Nat.min_self]

/-- **The frame of `poke_data`.**  It leaves the bytes outside of the range as they were, whatever
    they were, exactly if the length is a multiple of eight. -/
theorem pokeData_frame_iff (addr : UInt64) (hstr : len ≤ str.length) (hlen : len < 2 ^ 31)
    (hdata : data.length = 8) :
    (∀ mem mem', pokeData mem addr str len data = some mem' →
      ∀ b, len ≤ offset addr b → mem' b = mem b) ↔ len % 8 = 0 := by
  have htake : (str.take len).length = len := List.length_take_of_le hstr
  have hshort := length_leftover hdata hstr
  have hfits : (str.take len).length + (leftover str len data).length ≤ 2 ^ 64 := by omega
  have hframe := forall_patch_eq_iff addr hfits
  rw [htake, leftover_eq_nil_iff hdata hstr] at hframe
  rw [← hframe]
  constructor
  · intro h mem
    exact h mem _ (pokeData_eq hstr hlen hdata)
  · intro h mem mem' hpoke
    rw [pokeData_eq hstr hlen hdata] at hpoke
    cases hpoke
    exact h mem

/-- **Editing the memory of the process**, for every address, string and length, and for everything
    that may be in `data`.  In every memory `peek_data` reads the bytes of the range, and
    `poke_data` stores the string there, so that it is read back; it leaves the other bytes of every
    memory as they were exactly if the length is a multiple of eight. -/
theorem editing_exact (mem : Space) (addr : UInt64) (str data : List UInt8) (len : Nat)
    (hstr : len ≤ str.length) (hlen : len < 2 ^ 31) (hdata : data.length = 8) :
    (∀ buf : Mem, len < buf.length → peekData mem addr buf len =
      some ((bytesAt mem addr len).map some ++ some 0 :: buf.drop (len + 1))) ∧
    (∃ mem', pokeData mem addr str len data = some mem' ∧
      bytesAt mem' addr len = str.take len ∧
      ∀ buf : Mem, len < buf.length → peekData mem' addr buf len =
        some ((str.take len).map some ++ some 0 :: buf.drop (len + 1))) ∧
    ((∀ before after, pokeData before addr str len data = some after →
      ∀ b, len ≤ offset addr b → after b = before b) ↔ len % 8 = 0) := by
  have hstored := bytesAt_pokeData mem addr hstr hlen hdata
  refine ⟨fun buf hbuf => peekData_eq hbuf, ⟨_, pokeData_eq hstr hlen hdata, hstored, ?_⟩,
    pokeData_frame_iff addr hstr hlen hdata⟩
  intro buf hbuf
  rw [peekData_eq hbuf, hstored]

/-- A whole word is written, and nothing behind it. -/
theorem editing_exact_eight :
    ∃ mem', pokeData (fun _ => 7) 64 [1, 2, 3, 4, 5, 6, 7, 8] 8 [0, 0, 0, 0, 0, 0, 0, 0]
        = some mem' ∧
      bytesAt mem' 64 8 = [1, 2, 3, 4, 5, 6, 7, 8] ∧ ∀ b, 8 ≤ offset 64 b → mem' b = 7 := by
  obtain ⟨-, ⟨mem', hpoke, hstored, -⟩, hframe⟩ := editing_exact (fun _ => 7) 64
    [1, 2, 3, 4, 5, 6, 7, 8] [0, 0, 0, 0, 0, 0, 0, 0] 8 (by decide) (by decide) rfl
  exact ⟨mem', hpoke, hstored, hframe.mpr rfl _ mem' hpoke⟩

/-- Three bytes are written, and the five behind them are overwritten too. -/
theorem editing_overwrites :
    ∃ mem', pokeData (fun _ => 7) 64 [1, 2, 3] 3 [0, 0, 0, 0, 0, 0, 0, 0] = some mem' ∧
      3 ≤ offset 64 67 ∧ mem' 67 = 0 := by
  refine ⟨_, pokeData_eq (by decide) (by decide) rfl, by decide, by decide⟩

/-! ### `dump_string` -/

/-- `LONG_HAS_ZERO_BYTE(x)`. -/
def longHasZeroByte (x : UInt64) : Bool :=
  ~~~(((x &&& 0x7f7f7f7f7f7f7f7f) + 0x7f7f7f7f7f7f7f7f) ||| 0x7f7f7f7f7f7f7f7f) != 0

/-- The loop of `dump_string` for `n` words of room in `data`: `data`, and `nr` at the end.
    `readable` says where `ptrace` does not set `errno`. -/
def dumpWords (mem : Space) (readable : UInt64 → Bool) (addr : UInt64) :
    Nat → Nat → Mem → Option (Mem × Nat)
  | 0,     _,  _    => none
  | n + 1, nr, data =>
      if readable (addr + UInt64.ofNat nr) then
        let v := peek mem (addr + UInt64.ofNat nr)
        (memcpy data nr (v.map some) 8).bind fun data =>
          if longHasZeroByte (ofWord64 v) then some (data, nr)
          else dumpWords mem readable addr n (nr + 8) data
      -- `errno` is set: what has been read so far is the string
      else (write data nr 0).map fun data => (data, nr)

/-- `dump_string(child, addr)`: what is in `data`, and where its last word starts.
    Behind 4096 bytes the loop writes outside of `data`. -/
def dumpString (mem : Space) (readable : UInt64 → Bool) (addr : UInt64) (data : Mem) :
    Option (Mem × Nat) :=
  dumpWords mem readable addr 512 0 data

/-- **The test of `dump_string`** finds a zero byte, but it takes `0x80` for one, too. -/
theorem longHasZeroByte_iff {bs : List UInt8} (h : bs.length = 8) :
    longHasZeroByte (ofWord64 bs) = true ↔ 0 ∈ bs ∨ 0x80 ∈ bs := by
  have hmask : ZeroByte.repeated 8 0x7f = (0x7f7f7f7f7f7f7f7f : UInt64).toNat := by decide
  have hnum : (~~~(((ofWord64 bs &&& 0x7f7f7f7f7f7f7f7f) + 0x7f7f7f7f7f7f7f7f)
      ||| 0x7f7f7f7f7f7f7f7f)).toNat = ZeroByte.lowBits 8 (decode bs) := by
    rw [ZeroByte.lowBits, hmask, UInt64.toNat_not, UInt64.toNat_or, UInt64.toNat_add,
      UInt64.toNat_and, toNat_ofWord64 h]
    rfl
  have htest := ZeroByte.lowBits_eq_zero_iff bs
  rw [h, ← hnum] at htest
  rw [longHasZeroByte, bne_iff_ne, Ne, ← UInt64.toNat_inj]
  show ¬ _ = 0 ↔ _
  rw [htest, not_and_or, not_not, not_not]

/-- A word without the bytes `0` and `0x80`. -/
def Plain (mem : Space) (addr : UInt64) (k : Nat) : Prop :=
  0 ∉ peek mem (addr + UInt64.ofNat k) ∧ 0x80 ∉ peek mem (addr + UInt64.ofNat k)

/-- A word of the other process has eight bytes. -/
theorem length_peek (mem : Space) (addr : UInt64) : (peek mem addr).length = 8 :=
  length_bytesAt mem addr 8

/-- So `dump_string` stops at the first word that is not plain. -/
theorem longHasZeroByte_peek (mem : Space) (addr : UInt64) (k : Nat) :
    longHasZeroByte (ofWord64 (peek mem (addr + UInt64.ofNat k))) = true ↔ ¬ Plain mem addr k := by
  rw [longHasZeroByte_iff (length_peek _ _), Plain, not_and_or, not_not, not_not]

section Loop

variable {readable : UInt64 → Bool} {rest : Mem} {nr : Nat}

/-- A round that ends the loop. -/
theorem dumpWords_stop (hread : readable (addr + UInt64.ofNat nr) = true)
    (hstop : ¬ Plain mem addr nr) (hroom : 8 ≤ rest.length) :
    dumpWords mem readable addr (n + 1) nr ((bytesAt mem addr nr).map some ++ rest)
      = some ((bytesAt mem addr (nr + 8)).map some ++ rest.drop 8, nr) := by
  simp only [dumpWords, if_pos hread, memcpy_peek (by decide : 8 ≤ 8) hroom, Option.bind_some,
    if_pos ((longHasZeroByte_peek mem addr nr).mpr hstop)]

/-- A round with a plain word. -/
theorem dumpWords_plain (hread : readable (addr + UInt64.ofNat nr) = true)
    (hplain : Plain mem addr nr) (hroom : 8 ≤ rest.length) :
    dumpWords mem readable addr (n + 1) nr ((bytesAt mem addr nr).map some ++ rest)
      = dumpWords mem readable addr n (nr + 8)
          ((bytesAt mem addr (nr + 8)).map some ++ rest.drop 8) := by
  have hgo : ¬ longHasZeroByte (ofWord64 (peek mem (addr + UInt64.ofNat nr))) = true := by
    rw [longHasZeroByte_peek, not_not]
    exact hplain
  rw [dumpWords, if_pos hread]
  simp only [memcpy_peek (by decide : 8 ≤ 8) hroom, Option.bind_some, if_neg hgo]

/-- The loop of `dump_string` stops at the first word that is not plain: what is in front of it, and
    the word itself, is in `data` then. -/
theorem dumpWords_eq (hread : ∀ i ≤ k, readable (addr + UInt64.ofNat (nr + i * 8)) = true)
    (hplain : ∀ i < k, Plain mem addr (nr + i * 8)) (hstop : ¬ Plain mem addr (nr + k * 8))
    (hk : k < n) (hroom : n * 8 ≤ rest.length) :
    dumpWords mem readable addr n nr ((bytesAt mem addr nr).map some ++ rest)
      = some ((bytesAt mem addr (nr + k * 8 + 8)).map some ++ rest.drop (k * 8 + 8),
        nr + k * 8) := by
  obtain ⟨n, rfl⟩ : ∃ m, n = m + 1 := ⟨n - 1, by omega⟩
  have hfirst : readable (addr + UInt64.ofNat nr) = true := by simpa using hread 0 (Nat.zero_le k)
  -- by induction on the number of words in front of the one that stops the loop
  induction k generalizing n nr rest with
  | zero =>
    have hnone : nr + 0 * 8 = nr := by omega
    rw [hnone] at hstop ⊢
    rw [dumpWords_stop hfirst hstop (by omega), Nat.zero_mul, Nat.zero_add]
  | succ k ih =>
    have hnext : ∀ i, nr + 8 + i * 8 = nr + (i + 1) * 8 := by
      intro i
      omega
    have hzero : Plain mem addr nr := by simpa using hplain 0 (Nat.succ_pos k)
    obtain ⟨m, rfl⟩ : ∃ m, n = m + 1 := ⟨n - 1, by omega⟩
    have hdrop : rest.drop ((k + 1) * 8 + 8) = (rest.drop 8).drop (k * 8 + 8) := by
      rw [List.drop_drop]
      congr 1
      omega
    rw [dumpWords_plain hfirst hzero (by omega), ← hnext, hdrop]
    -- the hypotheses for the next word are those for this one, eight bytes further
    refine ih ?_ ?_ ?_ m ?_ ?_ ?_
    · intro i hi
      rw [hnext]
      exact hread (i + 1) (by omega)
    · intro i hi
      rw [hnext]
      exact hplain (i + 1) (by omega)
    · rw [hnext]
      exact hstop
    · omega
    · rw [List.length_drop]
      omega
    · simpa using hread 1 (by omega)

/-- The loop ends inside of the room it has, or not at all: each round needs eight bytes of it. -/
theorem dumpWords_lt {data data' : Mem} {nr' : Nat}
    (h : dumpWords mem readable addr n nr data = some (data', nr')) : nr' < nr + n * 8 := by
  induction n generalizing nr data with
  | zero => cases h
  | succ n ih =>
    rw [dumpWords] at h
    split at h
    · obtain ⟨copied, -, h⟩ := Option.bind_eq_some_iff.mp h
      split at h
      · cases h
        omega
      · have := ih h
        omega
    · obtain ⟨ended, -, h⟩ := Option.map_eq_some_iff.mp h
      cases h
      omega

/-- **What `dump_string` stores**: the plain words, and the one that it stops at, whose bytes are
    not counted. -/
theorem dumpString_eq {data : Mem} (hdata : data.length = 4096)
    (hk : k < 512) (hread : ∀ i ≤ k, readable (addr + UInt64.ofNat (i * 8)) = true)
    (hplain : ∀ i < k, Plain mem addr (i * 8)) (hstop : ¬ Plain mem addr (k * 8)) :
    dumpString mem readable addr data
      = some ((bytesAt mem addr (k * 8 + 8)).map some ++ data.drop (k * 8 + 8), k * 8) := by
  have hstart : ∀ i, 0 + i * 8 = i * 8 := fun i => Nat.zero_add _
  have hloop : dumpWords mem readable addr 512 0 ((bytesAt mem addr 0).map some ++ data)
      = some ((bytesAt mem addr (0 + k * 8 + 8)).map some ++ data.drop (k * 8 + 8),
        0 + k * 8) := by
    refine dumpWords_eq ?_ ?_ ?_ hk (Nat.le_of_eq hdata.symm)
    · intro i hi
      rw [hstart]
      exact hread i hi
    · intro i hi
      rw [hstart]
      exact hplain i hi
    · rw [hstart]
      exact hstop
  rw [hstart] at hloop
  exact hloop

/-- `dump_string` stops at the word with the terminator exactly if this one is inside of `data` and
    no byte `0x80` is in a word before it. -/
theorem dumpString_stops {data : Mem} (hdata : data.length = 4096)
    (hread : ∀ i ≤ k, readable (addr + UInt64.ofNat (i * 8)) = true)
    (hzero : 0 ∈ peek mem (addr + UInt64.ofNat (k * 8)))
    (hnone : ∀ i < k, 0 ∉ peek mem (addr + UInt64.ofNat (i * 8))) :
    dumpString mem readable addr data
        = some ((bytesAt mem addr (k * 8 + 8)).map some ++ data.drop (k * 8 + 8), k * 8) ↔
      k < 512 ∧ ∀ i < k, 0x80 ∉ peek mem (addr + UInt64.ofNat (i * 8)) := by
  constructor
  · intro hstop
    have hroom : k < 512 := by
      have := dumpWords_lt hstop
      omega
    refine ⟨hroom, fun i => ?_⟩
    -- the first word with `0x80` would have ended the loop
    induction i using Nat.strong_induction_on with
    | _ i ih =>
      intro hi hhigh
      have hstop' := dumpString_eq hdata (by omega) (fun j hj => hread j (by omega))
        (fun j hj => ⟨hnone j (by omega), ih j hj (by omega)⟩) (fun h => h.2 hhigh)
      rw [hstop, Option.some_inj, Prod.mk.injEq] at hstop'
      omega
  · rintro ⟨hroom, hhigh⟩
    exact dumpString_eq hdata hroom hread (fun i hi => ⟨hnone i hi, hhigh i hi⟩)
      (fun h => h.1 hzero)

end Loop

/-- **The zero-byte tests.** The first two tests of a 32-bit word say whether some byte is zero. The
    third one, and the test of a 64-bit word, say so except for a word with a byte `0x80` and none
    that is zero, and `dump_string` stops at the word with the terminator if it meets no such word,
    nor the end of `data`, before. -/
theorem zero_bytes (x : UInt32) (y : UInt64) (mem : Space) (readable : UInt64 → Bool)
    (addr : UInt64) (data : Mem) (k : Nat) :
    ((ZeroByte.hasZeroByte1 x = true ↔ 0 ∈ word32 x) ∧
      (ZeroByte.hasZeroByte2 x = true ↔ 0 ∈ word32 x) ∧
      ((ZeroByte.hasZeroByte3 x = true ↔ 0 ∈ word32 x) ↔ (0x80 ∈ word32 x → 0 ∈ word32 x))) ∧
    ((longHasZeroByte y = true ↔ 0 ∈ word64 y) ↔ (0x80 ∈ word64 y → 0 ∈ word64 y)) ∧
    (data.length = 4096 → (∀ i ≤ k, readable (addr + UInt64.ofNat (i * 8)) = true) →
      0 ∈ peek mem (addr + UInt64.ofNat (k * 8)) →
      (∀ i < k, 0 ∉ peek mem (addr + UInt64.ofNat (i * 8))) →
      (dumpString mem readable addr data
          = some ((bytesAt mem addr (k * 8 + 8)).map some ++ data.drop (k * 8 + 8), k * 8) ↔
        k < 512 ∧ ∀ i < k, 0x80 ∉ peek mem (addr + UInt64.ofNat (i * 8)))) := by
  refine ⟨⟨ZeroByte.hasZeroByte1_iff x, ZeroByte.hasZeroByte2_iff x, ?_⟩, ?_, dumpString_stops⟩
  · rw [ZeroByte.hasZeroByte3_iff, or_iff_left_iff_imp]
  · have htest := longHasZeroByte_iff (length_word64 y)
    rw [ofWord64_word64] at htest
    rw [htest, or_iff_left_iff_imp]

/-- A string of nine characters ends in its second word. -/
theorem zero_bytes_nine :
    ∃ data', dumpString (fun a => if a = 73 then 0 else 1) (fun _ => true) 64
      (List.replicate 4096 none) = some (data', 8) := by
  refine ⟨_, ((zero_bytes 0 0 (fun a => if a = 73 then 0 else 1) (fun _ => true) 64
    (List.replicate 4096 none) 1).2.2 List.length_replicate (fun _ _ => rfl) (by decide) ?_).mpr
    ⟨by decide, ?_⟩⟩
  · intro i hi
    obtain rfl : i = 0 := by omega
    decide
  · intro i hi
    obtain rfl : i = 0 := by omega
    decide

/-- No byte of these words is zero, yet two of the tests say so, and `dump_string` stops at the word
    `80 01 01 01 01 01 01 01`. -/
theorem zero_bytes_high :
    (0 ∉ word32 0x80808080 ∧ ZeroByte.hasZeroByte1 0x80808080 = false ∧
      ZeroByte.hasZeroByte3 0x80808080 = true) ∧
    (0 ∉ word64 0x8080808080808080 ∧ longHasZeroByte 0x8080808080808080 = true) ∧
    0 ∉ peek (fun a => if a = 64 then 0x80 else if a = 73 then 0 else 1) 64 ∧
    ∃ data', dumpString (fun a => if a = 64 then 0x80 else if a = 73 then 0 else 1)
      (fun _ => true) 64 (List.replicate 4096 none) = some (data', 0) := by
  have hhigh : ¬ Plain (fun a => if a = 64 then 0x80 else if a = 73 then 0 else 1) 64 0 :=
    fun h => h.2 (by decide)
  refine ⟨by decide, by decide, by decide, _, dumpString_eq (k := 0) List.length_replicate
    (by decide) (fun _ _ => rfl) ?_ hhigh⟩
  intro i hi
  omega

end CPlayground.Ptrace
