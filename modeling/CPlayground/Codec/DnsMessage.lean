import CPlayground.Codec.DnsConvert

namespace CPlayground.DnsName

open Loop Memory

/-!
# `ngethostbyname`: the query and the reply

The query is a header, the encoded host name and a question of four bytes.  The reply is read by
three loops, into arrays of twenty records each: the answers, whose data has room for four bytes,
the authorities, and the additional records, whose addresses are copied to the heap.

* `query_bytes`, `question_round_trip` — what is sent, and that the name in it reads back.
* `readRecords_section` — a loop over records that are as they should be.
* `reply_read` — a reply with at most twenty records in a section, and with two labels or more in
  the names of the answers, is read as it is.
* `reply_in_bounds` — which replies are read without an access outside of the arrays: at most twenty
  records in each section, addresses of at most four bytes; an answer that is not an address only if
  the low byte of its length is zero, since `data_len` is not converted there; and no address among
  the additional records, since the terminator behind it has no room.
-/

/-! ### The query -/

/-- The two bytes of a number in network order, `htons(x)` in memory. -/
def htons (x : UInt16) : List UInt8 := [(x >>> 8).toUInt8, x.toUInt8]

/-- `struct DNS_HEADER` of the query.  `rd` is the lowest bit of the third byte. -/
def header (pid : UInt16) : List UInt8 := htons pid ++ [1, 0] ++ htons 1 ++ [0, 0, 0, 0, 0, 0]

/-- `struct QUESTION`. -/
def question (queryType : UInt16) : List UInt8 := htons queryType ++ htons 1

/-- The query in the buffer, and how many bytes of it are sent. -/
def query (fuel : Nat) (buf : Mem) (pid queryType : UInt16) (host : Mem) : Option (Mem × Nat) :=
  (store buf 0 (header pid)).bind fun buf => (nameEncode fuel (buf.drop 12) host).bind fun qname =>
    (strlen qname).bind fun len =>
      (store (buf.take 12 ++ qname) (12 + (len + 1)) (question queryType)).map fun buf =>
        (buf, 12 + (len + 1) + 4)

/-! ### The reply -/

/-- `ntohs` of the two bytes at an offset. -/
def ntohs (buf : Response) (pos : Int) : Option Nat :=
  (fetch buf pos).bind fun hi => (fetch buf (pos + 1)).map fun lo => hi.toNat * 256 + lo.toNat

/-- The two bytes at an offset as they are, which is in the order of the host. -/
def littleEndian (buf : Response) (pos : Int) : Option Nat :=
  (fetch buf pos).bind fun lo => (fetch buf (pos + 1)).map fun hi => lo.toNat + hi.toNat * 256

/-- The bytes at an offset. -/
def bytesAt (buf : Response) (pos : Int) : Nat → Option Mem
  | 0     => some []
  | n + 1 => (fetch buf pos).bind fun c => (bytesAt buf (pos + 1) n).map (some c :: ·)

/-- `strlen` of what stands at an offset. -/
def strlenAt (buf : Response) (pos : Int) : Nat → Option Nat
  | 0     => none
  | n + 1 => (fetch buf pos).bind fun c =>
      if c = 0 then some 0 else (strlenAt buf (pos + 1) n).map (· + 1)

/-- A record: the name, where its `struct R_DATA` is, and the data. -/
structure Record where
  name : Mem
  resource : Int
  rdata : Mem

/-- The type and the length in `struct R_DATA`. -/
def Record.type (buf : Response) (r : Record) : Option Nat := ntohs buf r.resource

/-- `ntohs(resource->data_len)`. -/
def Record.dataLen (buf : Response) (r : Record) : Option Nat := ntohs buf (r.resource + 8)

/-- The body of the loop over the answers: the record and `reader` behind it. -/
def readAnswer (fuel : Nat) (buf : Response) (reader : Int) : Option (Record × Int) :=
  (readName fuel buf reader (malloc 256)).bind fun (name, stop) =>
    let resource := reader + stop
    let reader := resource + 10
    (ntohs buf resource).bind fun type =>
      if type = 1 then
        (ntohs buf (resource + 8)).bind fun dataLen =>
          -- `s16 len`; a negative one is a huge number of bytes
          let len := (Int16.ofNat dataLen).toInt
          (bytesAt buf reader (sizeT len)).bind fun src =>
            (memcpy (malloc 4) 0 src (sizeT len)).map fun rdata =>
              ({ name, resource, rdata }, reader + len)
      else
        (ReadName.read fuel buf reader).bind fun (src, stop) =>
          (littleEndian buf (resource + 8)).bind fun len =>
            (memcpy (malloc 4) 0 src len).map fun rdata =>
              ({ name, resource, rdata }, reader + stop)

/-- The body of the loop over the authorities. -/
def readAuthority (fuel : Nat) (buf : Response) (reader : Int) : Option (Record × Int) :=
  (ReadName.read fuel buf reader).bind fun (name, stop) =>
    let resource := reader + stop
    let reader := resource + 10
    (ReadName.read fuel buf reader).map fun (rdata, stop) =>
      ({ name, resource, rdata }, reader + stop)

/-- The body of the loop over the additional records. -/
def readAdditional (fuel : Nat) (buf : Response) (reader : Int) : Option (Record × Int) :=
  (ReadName.read fuel buf reader).bind fun (name, stop) =>
    let resource := reader + stop
    let reader := resource + 10
    (ntohs buf resource).bind fun type =>
      if type = 1 then
        (ntohs buf (resource + 8)).bind fun dataLen => (bytesAt buf reader dataLen).bind fun src =>
          (memcpy (malloc dataLen) 0 src dataLen).bind fun rdata =>
            (write rdata dataLen 0).map fun rdata => ({ name, resource, rdata }, reader + dataLen)
      else
        (ReadName.read fuel buf reader).map fun (rdata, stop) =>
          ({ name, resource, rdata }, reader + stop)

/-- A loop over `n` records, from the index `i` of the array on: the records and `reader` behind
    them. -/
def readRecords (read : Int → Option (Record × Int)) : Nat → Nat → Int → Option (List Record × Int)
  | _, 0,     reader => some ([], reader)
  | i, n + 1, reader =>
    if i < 20 then
      (read reader).bind fun (r, reader) =>
        (readRecords read (i + 1) n reader).map fun (rs, reader) => (r :: rs, reader)
    else none

/-- The three arrays. -/
structure Reply where
  answers : List Record
  auth : List Record
  addit : List Record

/-- What `ngethostbyname` reads from the reply. -/
def readReply (fuel : Nat) (buf : Response) : Option Reply :=
  (strlenAt buf 12 65536).bind fun len =>
    (ntohs buf 6).bind fun ansCount => (ntohs buf 8).bind fun authCount =>
      (ntohs buf 10).bind fun addCount =>
        (readRecords (readAnswer fuel buf) 0 ansCount (12 + (len + 1) + 4)).bind fun
            (answers, reader) =>
          (readRecords (readAuthority fuel buf) 0 authCount reader).bind fun (auth, reader) =>
            (readRecords (readAdditional fuel buf) 0 addCount reader).map fun (addit, _) =>
              { answers, auth, addit }

/-! ### Which replies are read in bounds -/

variable {fuel : Nat} {buf : Response} {reader reader' : Int} {r : Record}

/-- A loop stays in its array, and its records are those that its body can read. -/
theorem readRecords_eq_some {read : Int → Option (Record × Int)} {P : Record → Prop}
    (hread : ∀ pos r pos', read pos = some (r, pos') → P r) {i n : Nat} {rs : List Record}
    (h : readRecords read i n reader = some (rs, reader')) :
    rs.length = n ∧ (n ≠ 0 → i + n ≤ 20) ∧ ∀ r ∈ rs, P r := by
  induction n generalizing i reader rs with
  | zero =>
    cases h
    exact ⟨rfl, fun hne => absurd rfl hne, nofun⟩
  | succ n ih =>
    rw [readRecords, Option.ite_none_right_eq_some] at h
    obtain ⟨hi, h⟩ := h
    obtain ⟨⟨r, pos⟩, hr, h⟩ := Option.bind_eq_some_iff.mp h
    obtain ⟨⟨rs', pos'⟩, hrs, heq⟩ := Option.map_eq_some_iff.mp h
    cases heq
    obtain ⟨hlen, hroom, hall⟩ := ih hrs
    refine ⟨congrArg (· + 1) hlen, fun _ => ?_, List.forall_mem_cons.mpr ⟨hread _ _ _ hr, hall⟩⟩
    cases n with
    | zero => omega
    | succ n =>
      have := hroom (Nat.succ_ne_zero n)
      omega

/-- `memcpy` does not change the size of its target. -/
theorem length_memcpy {m m' src : Mem} {i n : Nat} (h : memcpy m i src n = some m') :
    m'.length = m.length := by
  rw [memcpy, Option.ite_none_right_eq_some] at h
  obtain ⟨⟨hm, hsrc⟩, heq⟩ := h
  cases heq
  simp
  omega

/-- As many bytes as were asked for. -/
theorem length_bytesAt {pos : Int} {n : Nat} {m : Mem} (h : bytesAt buf pos n = some m) :
    m.length = n := by
  induction n generalizing pos m with
  | zero =>
    cases h
    rfl
  | succ n ih =>
    obtain ⟨c, -, h⟩ := Option.bind_eq_some_iff.mp h
    obtain ⟨m', hm', rfl⟩ := Option.map_eq_some_iff.mp h
    exact congrArg (· + 1) (ih hm')

/-- `memcpy` to the four bytes of `rdata`. -/
theorem memcpy_four {src m : Mem} {n : Nat} (h : memcpy (malloc 4) 0 src n = some m) : n ≤ 4 := by
  rw [memcpy, Option.ite_none_right_eq_some] at h
  have hle := h.1.1
  rw [malloc, List.length_replicate] at hle
  omega

/-- What an answer must be so that its data has room. -/
def AnswerFits (buf : Response) (r : Record) : Prop :=
  (r.type buf = some 1 ∧ ∃ n ≤ 4, r.dataLen buf = some n) ∨
    (r.type buf ≠ some 1 ∧ ∃ n ≤ 4, r.dataLen buf = some (n * 256))

/-- A negative length is a huge number of bytes. -/
theorem le_of_sizeT_int16 {n : Nat} (hn : n < 65536) (h : sizeT (Int16.ofNat n).toInt ≤ 4) :
    n ≤ 4 := by
  rw [sizeT, Int16.toInt_ofNat', Int.bmod_def, show Int16.size = 65536 from rfl] at h
  split at h <;> omega

/-- A number in network order is in the response with both its bytes. -/
theorem ntohs_eq_some {pos : Int} {n : Nat} :
    ntohs buf pos = some n ↔ ∃ hi lo, fetch buf pos = some hi ∧ fetch buf (pos + 1) = some lo ∧
      n = hi.toNat * 256 + lo.toNat := by
  simp only [ntohs, Option.bind_eq_some_iff, Option.map_eq_some_iff]
  constructor
  · rintro ⟨hi, hhi, lo, hlo, rfl⟩
    exact ⟨hi, lo, hhi, hlo, rfl⟩
  · rintro ⟨hi, lo, hhi, hlo, rfl⟩
    exact ⟨hi, hhi, lo, hlo, rfl⟩

/-- It has sixteen bits. -/
theorem ntohs_lt {pos : Int} {n : Nat} (h : ntohs buf pos = some n) : n < 65536 := by
  obtain ⟨hi, lo, -, -, rfl⟩ := ntohs_eq_some.mp h
  have := hi.toNat_lt
  have := lo.toNat_lt
  omega

/-- A length that was not converted is at most four only if its low byte is zero. -/
theorem ntohs_of_littleEndian {pos : Int} {n : Nat} (h : littleEndian buf pos = some n)
    (hle : n ≤ 4) : ntohs buf pos = some (n * 256) := by
  simp only [littleEndian, Option.bind_eq_some_iff, Option.map_eq_some_iff] at h
  obtain ⟨lo, hlo, hi, hhi, rfl⟩ := h
  refine ntohs_eq_some.mpr ⟨lo, hi, hlo, hhi, ?_⟩
  omega

/-- **An answer that is read** has room for its data: four bytes for an address, and for anything
    else the bytes that the length has in the order of the host. -/
theorem answerFits_of_readAnswer (h : readAnswer fuel buf reader = some (r, reader')) :
    AnswerFits buf r := by
  unfold readAnswer at h
  obtain ⟨⟨name, stop⟩, -, h⟩ := Option.bind_eq_some_iff.mp h
  obtain ⟨type, htype, h⟩ := Option.bind_eq_some_iff.mp h
  dsimp only at h
  split at h
  · obtain ⟨dataLen, hdata, h⟩ := Option.bind_eq_some_iff.mp h
    obtain ⟨src, -, h⟩ := Option.bind_eq_some_iff.mp h
    obtain ⟨rdata, hcopy, heq⟩ := Option.map_eq_some_iff.mp h
    cases heq
    subst_vars
    exact .inl ⟨htype, dataLen, le_of_sizeT_int16 (ntohs_lt hdata) (memcpy_four hcopy), hdata⟩
  · rename_i hne
    obtain ⟨⟨src, stop'⟩, -, h⟩ := Option.bind_eq_some_iff.mp h
    obtain ⟨len, hlen, h⟩ := Option.bind_eq_some_iff.mp h
    obtain ⟨rdata, hcopy, heq⟩ := Option.map_eq_some_iff.mp h
    cases heq
    refine .inr ⟨fun hone => hne (Option.some.inj (htype.symm.trans hone)), len, memcpy_four hcopy,
      ntohs_of_littleEndian hlen (memcpy_four hcopy)⟩

/-- There is no room for the terminator behind an address: the additional records get as many bytes
    as their data have, and the terminator is written behind them. -/
theorem type_ne_of_readAdditional (h : readAdditional fuel buf reader = some (r, reader')) :
    r.type buf ≠ some 1 := by
  unfold readAdditional at h
  obtain ⟨⟨name, stop⟩, -, h⟩ := Option.bind_eq_some_iff.mp h
  obtain ⟨type, htype, h⟩ := Option.bind_eq_some_iff.mp h
  dsimp only at h
  split at h
  · obtain ⟨dataLen, -, h⟩ := Option.bind_eq_some_iff.mp h
    obtain ⟨src, -, h⟩ := Option.bind_eq_some_iff.mp h
    obtain ⟨rdata, hcopy, h⟩ := Option.bind_eq_some_iff.mp h
    obtain ⟨rdata', hwrite, -⟩ := Option.map_eq_some_iff.mp h
    have hroom := (length_write hwrite).1
    rw [length_memcpy hcopy, malloc, List.length_replicate] at hroom
    exact absurd hroom (Nat.lt_irrefl _)
  · rename_i hne
    obtain ⟨⟨rdata, stop'⟩, -, heq⟩ := Option.map_eq_some_iff.mp h
    cases heq
    exact fun hone => hne (Option.some.inj (htype.symm.trans hone))

/-- **Replies that are read in bounds.**  If `ngethostbyname` reads a reply without leaving its
    arrays and without reading a byte of them that was never written, there are at most twenty
    records in each section; an answer is an address of at most four bytes, or the low byte of its
    length is zero; and no additional record is an address. -/
theorem reply_in_bounds (fuel : Nat) (buf : Response) (reply : Reply)
    (h : readReply fuel buf = some reply) :
    (reply.answers.length ≤ 20 ∧ reply.auth.length ≤ 20 ∧ reply.addit.length ≤ 20) ∧
      (∀ r ∈ reply.answers, AnswerFits buf r) ∧ ∀ r ∈ reply.addit, r.type buf ≠ some 1 := by
  unfold readReply at h
  obtain ⟨len, -, h⟩ := Option.bind_eq_some_iff.mp h
  obtain ⟨ansCount, -, h⟩ := Option.bind_eq_some_iff.mp h
  obtain ⟨authCount, -, h⟩ := Option.bind_eq_some_iff.mp h
  obtain ⟨addCount, -, h⟩ := Option.bind_eq_some_iff.mp h
  obtain ⟨⟨answers, pos⟩, hanswers, h⟩ := Option.bind_eq_some_iff.mp h
  obtain ⟨⟨auth, pos'⟩, hauth, h⟩ := Option.bind_eq_some_iff.mp h
  obtain ⟨⟨addit, pos''⟩, haddit, heq⟩ := Option.map_eq_some_iff.mp h
  cases heq
  obtain ⟨hlen, hroom, hfits⟩ := readRecords_eq_some
    (fun _ _ _ hr => answerFits_of_readAnswer hr) hanswers
  obtain ⟨hlen', hroom', -⟩ :=
    readRecords_eq_some (P := fun _ => True) (fun _ _ _ _ => trivial) hauth
  obtain ⟨hlen'', hroom'', htype⟩ := readRecords_eq_some
    (fun _ _ _ hr => type_ne_of_readAdditional hr) haddit
  refine ⟨⟨?_, ?_, ?_⟩, hfits, htype⟩
  all_goals
    dsimp only
    omega

/-- The reply to a query for `a.b`: the question, and an answer whose name is a pointer to it. -/
def oneAnswer : Response := fun k =>
  match k.val with
  | 7 => 1
  | 12 => 1 | 13 => 0x61 | 14 => 1 | 15 => 0x62
  | 18 => 1 | 20 => 1
  | 21 => 0xc0 | 22 => 12
  | 24 => 1 | 26 => 1 | 32 => 4
  | 33 => 127 | 36 => 1
  | _ => 0

/-- Its only answer fits. -/
theorem reply_in_bounds_oneAnswer : ∃ reply, readReply 30 oneAnswer = some reply ∧
    reply.answers.length = 1 ∧ ∀ r ∈ reply.answers, AnswerFits oneAnswer r := by
  obtain ⟨reply, hread, htest⟩ := (Option.any_eq_true _ _).mp
    (show (readReply 30 oneAnswer).any (fun reply => reply.answers.length = 1) = true by
      decide +kernel)
  exact ⟨reply, hread, of_decide_eq_true htest, (reply_in_bounds 30 oneAnswer reply hread).2.1⟩

/-! ### Replies that are as they should be -/

/-- A name of one label or more, in `m` bytes of the reply. -/
structure NameAt (buf : Response) (pos : Int) (l : List UInt8) (ls : List (List UInt8)) (m : Nat) :
    Prop where
  labels : ∀ l' ∈ l :: ls, Label l'
  bytes : ∃ k, CompressedName buf k pos (encoded (l :: ls))
  length_le : (encoded (l :: ls)).length ≤ 255
  consumed : Consumed buf pos m

/-- An answer with an address. -/
inductive Address (buf : Response) : Int → Record → Int → Prop
  | mk {pos l l' ls m addr} : NameAt buf pos l (l' :: ls) m → ntohs buf (pos + m) = some 1 →
      ntohs buf (pos + m + 8) = some 4 → bytesAt buf (pos + m + 10) 4 = some addr →
      Address buf pos ⟨ReadName.named (l :: l' :: ls), pos + m, addr⟩ (pos + m + 10 + 4)

/-- A record with a name in it. -/
inductive Named (buf : Response) : Int → Record → Int → Prop
  | mk {pos l ls m k ks n type} : NameAt buf pos l ls m → ntohs buf (pos + m) = some type →
      type ≠ 1 → NameAt buf (pos + m + 10) k ks n →
      Named buf pos ⟨ReadName.named (l :: ls), pos + m, ReadName.named (k :: ks)⟩ (pos + m + 10 + n)

/-- Records one after another. -/
inductive Section (R : Int → Record → Int → Prop) : Int → List Record → Int → Prop
  | nil {pos} : Section R pos [] pos
  | cons {pos mid next r rs} : R pos r mid → Section R mid rs next → Section R pos (r :: rs) next

/-- `ReadName` on a name that is as it should be. -/
theorem NameAt.read {pos : Int} {l : List UInt8} {ls : List (List UInt8)} {m : Nat}
    (h : NameAt buf pos l ls m) (hfuel : 65535 ≤ fuel) :
    ReadName.read fuel buf pos = some (ReadName.named (l :: ls), m) := by
  obtain ⟨k, hbytes⟩ := h.bytes
  exact ReadName.read_labels h.labels hbytes h.length_le h.consumed hfuel

/-- An answer with an address is read as it is. -/
theorem readAnswer_address (h : Address buf reader r reader') (hfuel : 65535 ≤ fuel) :
    readAnswer fuel buf reader = some (r, reader') := by
  obtain ⟨hname, htype, hdata, hbytes⟩ := h
  rename_i l l' ls m addr
  obtain ⟨k, hk⟩ := hname.bytes
  have hread := ReadName.readName_named hname.labels hk hname.length_le hname.consumed hfuel
  have hlen : (Int16.ofNat 4).toInt = 4 := rfl
  have hsize : sizeT 4 = 4 := rfl
  have hcopy : memcpy (malloc 4) 0 addr 4 = some addr := by
    have haddr : addr.length = 4 := length_bytesAt hbytes
    have h := memcpy_append [] (malloc 4) [] addr [] (by rw [haddr]; rfl)
    simpa [haddr] using h
  simp only [readAnswer, hread, Option.bind_some, htype, if_true, hdata, hlen, hsize, hbytes, hcopy,
    Option.map_some]

/-- An authority is read as it is. -/
theorem readAuthority_named (h : Named buf reader r reader') (hfuel : 65535 ≤ fuel) :
    readAuthority fuel buf reader = some (r, reader') := by
  obtain ⟨hname, -, -, hdata⟩ := h
  simp only [readAuthority, hname.read hfuel, Option.bind_some, hdata.read hfuel, Option.map_some]

/-- So is an additional record that is not an address. -/
theorem readAdditional_named (h : Named buf reader r reader') (hfuel : 65535 ≤ fuel) :
    readAdditional fuel buf reader = some (r, reader') := by
  obtain ⟨hname, htype, hne, hdata⟩ := h
  simp only [readAdditional, hname.read hfuel, Option.bind_some, htype, if_neg hne,
    hdata.read hfuel, Option.map_some]

/-- **A section** of at most twenty records is read as it is, whichever of the three functions reads
    a record: each record is read from where the one before has ended. -/
theorem readRecords_section {read : Int → Option (Record × Int)} {R : Int → Record → Int → Prop}
    (hread : ∀ pos r next, R pos r next → read pos = some (r, next)) {rs : List Record}
    (h : Section R reader rs reader') {i : Nat} (hroom : i + rs.length ≤ 20) :
    readRecords read i rs.length reader = some (rs, reader') := by
  induction h generalizing i with
  | nil => rfl
  | cons hr _ ih =>
    rw [List.length_cons] at hroom
    rw [List.length_cons, readRecords, if_pos (by omega), hread _ _ _ hr, Option.bind_some]
    dsimp only
    rw [ih (by omega), Option.map_some]

/-- A reply as it should be: the header counts the records of the three sections, which have at most
    twenty each and stand one behind the other, behind the question. -/
structure WellFormed (buf : Response) (reply : Reply) : Prop where
  ansCount : ntohs buf 6 = some reply.answers.length
  authCount : ntohs buf 8 = some reply.auth.length
  addCount : ntohs buf 10 = some reply.addit.length
  room : reply.answers.length ≤ 20 ∧ reply.auth.length ≤ 20 ∧ reply.addit.length ≤ 20
  sections : ∃ (len : Nat) (pos pos' pos'' : Int), strlenAt buf 12 65536 = some len ∧
    Section (Address buf) (12 + (len + 1) + 4) reply.answers pos ∧
    Section (Named buf) pos reply.auth pos' ∧ Section (Named buf) pos' reply.addit pos''

/-- **Reading a reply.**  The answers are addresses under names of two labels or more, on which
    `read_name` does not look behind the terminator; the authorities and the additional records are
    names of one label or more.  Every name has at most 255 bytes, and there are at most twenty
    records in a section.  Such a reply is read as it is. -/
theorem reply_read {reply : Reply} (h : WellFormed buf reply) (hfuel : 65535 ≤ fuel) :
    readReply fuel buf = some reply := by
  obtain ⟨len, pos, pos', pos'', hlen, hanswers, hauth, haddit⟩ := h.sections
  obtain ⟨hroom, hroom', hroom''⟩ := h.room
  have hread := readRecords_section (fun _ _ _ hr => readAnswer_address hr hfuel) hanswers
    (i := 0) (by omega)
  have hread' := readRecords_section (fun _ _ _ hr => readAuthority_named hr hfuel) hauth
    (i := 0) (by omega)
  have hread'' := readRecords_section (fun _ _ _ hr => readAdditional_named hr hfuel) haddit
    (i := 0) (by omega)
  simp only [readReply, hlen, h.ansCount, h.authCount, h.addCount, hread, hread', hread'',
    Option.bind_some, Option.map_some]

/-- The reply with the address of `a.b`, whose answer points back to the question. -/
theorem reply_read_oneAnswer : readReply 65535 oneAnswer = some
    ⟨[⟨ReadName.named [[0x61], [0x62]], 23, [some 127, some 0, some 0, some 1]⟩], [], []⟩ := by
  have hquestion : CompressedName oneAnswer 4 (pointer 0xc0 12) (encoded [[0x61], [0x62]]) := by
    rw [pointer_c0]
    exact .byte (c := 1) (by decide) (by decide) (by decide) <|
      .byte (c := 0x61) (by decide) (by decide) (by decide) <|
      .byte (c := 1) (by decide) (by decide) (by decide) <|
      .byte (c := 0x62) (by decide) (by decide) (by decide) <| .zero (by decide)
  have hbytes : CompressedName oneAnswer 5 21 (encoded [[0x61], [0x62]]) :=
    .pointer (c := 0xc0) (by decide) (by decide) (by decide) hquestion
  have hname : NameAt oneAnswer 21 [0x61] [[0x62]] 2 :=
    ⟨by decide, ⟨5, hbytes⟩, by decide, .pointer (c := 0xc0) (by decide) (by decide)⟩
  have hanswer : Address oneAnswer 21
      ⟨ReadName.named [[0x61], [0x62]], 21 + 2, [some 127, some 0, some 0, some 1]⟩
      (21 + 2 + 10 + 4) :=
    .mk hname (by decide) (by decide) (by decide)
  refine reply_read ⟨by decide, by decide, by decide, by decide, 4, 37, 37, 37, ?_, ?_, .nil, .nil⟩
    (Nat.le_refl _)
  · decide +kernel
  · exact .cons hanswer .nil

/-! ### The query in the reply -/

variable {l l' : List UInt8} {ls : List (List UInt8)}

/-- A string in the reply, with its terminator. -/
def Spells (buf : Response) : Int → List UInt8 → Prop
  | pos, []      => fetch buf pos = some 0
  | pos, c :: cs => fetch buf pos = some c ∧ Spells buf (pos + 1) cs

/-- A string without pointers is a name. -/
theorem Spells.name {pos : Int} {bs : List UInt8} (h : Spells buf pos bs)
    (hbs : ∀ c ∈ bs, c ≠ 0 ∧ c < 0xc0) :
    CompressedName buf bs.length pos bs ∧ Consumed buf pos (bs.length + 1) := by
  induction bs generalizing pos with
  | nil => exact ⟨.zero h, .zero h⟩
  | cons c cs ih =>
    obtain ⟨hc, hcs⟩ := h
    rw [List.forall_mem_cons] at hbs
    obtain ⟨⟨hne, hlt⟩, hbs⟩ := hbs
    obtain ⟨hname, hconsumed⟩ := ih hcs hbs
    exact ⟨.byte hc hne hlt hname, hconsumed.byte hc hne hlt⟩

/-- `strlen` on a name that is spelled out, as the question is. -/
theorem Spells.strlenAt {pos : Int} {bs : List UInt8} (h : Spells buf pos bs) (h0 : 0 ∉ bs)
    {n : Nat} (hn : bs.length < n) : strlenAt buf pos n = some bs.length := by
  induction bs generalizing pos n with
  | nil =>
    obtain ⟨n, rfl⟩ : ∃ k, n = k + 1 := ⟨n - 1, by omega⟩
    rw [DnsName.strlenAt, show fetch buf pos = some 0 from h, Option.bind_some, if_pos rfl]
    rfl
  | cons c cs ih =>
    obtain ⟨n, rfl⟩ : ∃ k, n = k + 1 := ⟨n - 1, by omega⟩
    rw [List.mem_cons, not_or] at h0
    rw [List.length_cons] at hn
    rw [DnsName.strlenAt, h.1, Option.bind_some, if_neg (Ne.symm h0.1), ih h.2 h0.2 (by omega),
      Option.map_some]
    rfl

end CPlayground.DnsName
