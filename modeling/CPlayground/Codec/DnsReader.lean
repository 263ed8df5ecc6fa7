import CPlayground.Codec.DnsName
import Mathlib.Data.Fintype.Card

namespace CPlayground.DnsName

open Loop Memory

/-!
# Names in DNS responses

`read_name` and `ReadName` copy a name out of a response.  A byte from `0xc0` on is the first half
of a pointer: the name goes on at an offset of the response, which the sender chooses.

* `CompressedName` — what the two functions expect: following the pointers one comes to a zero.
* `CompressedName.steps_lt` — that takes less than 65536 steps, since no offset is seen twice.
* `scan_name`, `name_of_scan` — the loops end exactly on such names, and copy their bytes.
* `scan_in_bounds` — nothing in the code refuses other responses.
* `scans_agree` — the two loops agree, and count the bytes up to the first pointer.
* `readName_labels` — a name of two labels or more is read as the host name.
-/

/-! ### The two functions -/

/-- The buffer of the response. -/
abbrev Response := Fin 65536 → UInt8

/-- `buf[k]`. -/
def fetch (buf : Response) (k : Int) : Option UInt8 :=
  if h : 0 ≤ k ∧ k < 65536 then some (buf ⟨k.toNat, by omega⟩) else none

/-- `reader[0]*256+reader[1]-0xc000`. -/
def pointer (c c' : UInt8) : Int := c.toNat * 256 + c'.toNat - 0xc000

/-- The first byte `0xc0` adds nothing to the offset. -/
theorem pointer_c0 (c : UInt8) : pointer 0xc0 c = c.toNat := by
  show ((192 : Nat) : Int) * 256 + c.toNat - 0xc000 = _
  omega

/-- The variables of the loops: `reader` as an offset in the response, the buffer for the name, `p`,
    `jump` and the count. -/
structure Scan where
  reader : Int
  name : Mem
  p : Nat
  jump : Nat
  n : Nat

/-- The condition of the loops.  A byte outside of the response makes a round that fails. -/
def unread (buf : Response) (s : Scan) : Bool := fetch buf s.reader ≠ some 0

/-- `if(jump==0){++n;}`. -/
def countByte (s : Scan) : Scan := if s.jump = 0 then { s with n := s.n + 1 } else s

/-- The body of the loop of `read_name`. -/
def readNameRound (buf : Response) (s : Scan) : Option Scan :=
  (fetch buf s.reader).bind fun c =>
    (if 0xc0 ≤ c then
      (fetch buf (s.reader + 1)).map fun c' => { s with reader := pointer c c', jump := 1 }
    else
      (write s.name s.p c).map fun name =>
        { s with name, p := s.p + 1, reader := s.reader + 1 }).map countByte

/-- The loop of `read_name`, for at most `fuel` rounds, with the terminator and the count: the
    buffer for the name and `*count`. -/
def readNameScan (fuel : Nat) (buf : Response) (reader : Int) (name : Mem) : Option (Mem × Nat) :=
  (run (unread buf) (readNameRound buf) fuel { reader, name, p := 0, jump := 0, n := 1 }).bind
    fun s => (write s.name s.p 0).map fun name => (name, s.n + s.jump)

/-- `read_name(reader, buf, count, name)`. -/
def readName (fuel : Nat) (buf : Response) (reader : Int) (name : Mem) : Option (Mem × Nat) :=
  (readNameScan fuel buf reader name).bind fun r =>
    (nameDecode fuel none r.1).map fun name => (name, r.2)

/-- The body of the loop of `ReadName`. -/
def ReadName.round (buf : Response) (s : Scan) : Option Scan :=
  (fetch buf s.reader).bind fun c =>
    (if 192 ≤ c then
      (fetch buf (s.reader + 1)).map fun c' => { s with reader := pointer c c' - 1, jump := 1 }
    else
      (write s.name s.p c).map fun name => { s with name, p := s.p + 1 }).map fun s =>
    countByte { s with reader := s.reader + 1 }

/-- The loop of `ReadName`, with what is in front of it and the two statements behind it. -/
def ReadName.scan (fuel : Nat) (buf : Response) (reader : Int) : Option (Mem × Nat) :=
  (write (malloc 256) 0 0).bind fun name =>
    (run (unread buf) (ReadName.round buf) fuel { reader, name, p := 0, jump := 0, n := 1 }).bind
      fun s => (write s.name s.p 0).map fun name =>
        (name, if s.jump = 1 then s.n + 1 else s.n)

/-! ### Compressed names -/

/-- The name at an offset, in a number of steps: bytes, pointers to the rest of the name, and a
    zero. -/
inductive CompressedName (buf : Response) : Nat → Int → List UInt8 → Prop
  | zero {pos} : fetch buf pos = some 0 → CompressedName buf 0 pos []
  | byte {k pos c bs} : fetch buf pos = some c → c ≠ 0 → c < 0xc0 →
      CompressedName buf k (pos + 1) bs → CompressedName buf (k + 1) pos (c :: bs)
  | pointer {k pos c c' bs} : fetch buf pos = some c → 0xc0 ≤ c → fetch buf (pos + 1) = some c' →
      CompressedName buf k (pointer c c') bs → CompressedName buf (k + 1) pos bs

variable {buf : Response} {k : Nat} {pos : Int} {bs : List UInt8}

namespace CompressedName

/-- Where a name begins there is a byte of the response. -/
theorem fetch_isSome (h : CompressedName buf k pos bs) : ∃ c, fetch buf pos = some c := by
  cases h with
  | zero hc => exact ⟨_, hc⟩
  | byte hc => exact ⟨_, hc⟩
  | pointer hc => exact ⟨_, hc⟩

/-- It begins in the response. -/
theorem bounds (h : CompressedName buf k pos bs) : 0 ≤ pos ∧ pos < 65536 := by
  obtain ⟨c, hc⟩ := h.fetch_isSome
  by_contra hout
  rw [fetch, dif_neg hout] at hc
  exact absurd hc (by simp)

/-- An offset has at most one name, in one number of steps, because the byte at each offset decides
    what comes next. -/
theorem steps_unique {k' : Nat} {bs' : List UInt8} (h : CompressedName buf k pos bs)
    (h' : CompressedName buf k' pos bs') : k = k' := by
  -- by induction on the first reading: the byte at `pos` tells which rule the second one begins
  -- with
  induction h generalizing k' bs' with
  | zero hc =>
    cases h' with
    | zero => rfl
    | byte hc' hne => exact absurd (Option.some_inj.mp (hc'.symm.trans hc)) hne
    | pointer hc' hle => simp [Option.some_inj.mp (hc'.symm.trans hc)] at hle
  | byte hc hne hlt _ ih =>
    cases h' with
    | zero hc' => exact absurd (Option.some_inj.mp (hc.symm.trans hc')) hne
    | byte hc' _ _ hrest => rw [ih hrest]
    | pointer hc' hle =>
      rw [Option.some_inj.mp (hc.symm.trans hc')] at hlt
      exact absurd hle (UInt8.not_le.mpr hlt)
  | pointer hc hle hc₁ _ ih =>
    cases h' with
    | zero hc' => simp [Option.some_inj.mp (hc.symm.trans hc')] at hle
    | byte hc' _ hlt =>
      rw [Option.some_inj.mp (hc.symm.trans hc')] at hle
      exact absurd hle (UInt8.not_le.mpr hlt)
    | pointer hc' _ hc₁' hrest =>
      rw [← Option.some_inj.mp (hc.symm.trans hc'), ← Option.some_inj.mp (hc₁.symm.trans hc₁')]
        at hrest
      rw [ih hrest]

/-- The steps behind the first ones. -/
theorem exists_rest (h : CompressedName buf k pos bs) {i : Nat} (hi : i ≤ k) :
    ∃ pos' bs', CompressedName buf i pos' bs' := by
  induction h with
  | zero hc =>
    rw [Nat.le_zero.mp hi]
    exact ⟨_, _, .zero hc⟩
  | byte hc hne hlt hrest ih =>
    rcases Nat.le_succ_iff.mp hi with hi | rfl
    · exact ih hi
    · exact ⟨_, _, .byte hc hne hlt hrest⟩
  | pointer hc hle hc' hrest ih =>
    rcases Nat.le_succ_iff.mp hi with hi | rfl
    · exact ih hi
    · exact ⟨_, _, .pointer hc hle hc' hrest⟩

/-- **No offset is seen twice**, so there are less steps than offsets: if one were, the same bytes
    would be read from it again, and no zero would come. -/
theorem steps_lt (h : CompressedName buf k pos bs) : k < 65536 := by
  have hrest : ∀ i : Fin (k + 1), ∃ pos bs, CompressedName buf i pos bs :=
    fun i => h.exists_rest (Nat.le_of_lt_succ i.isLt)
  -- the offset that is `i` steps in front of the end, for every `i`
  choose at' name hname using hrest
  let offset (i : Fin (k + 1)) : Fin 65536 := ⟨(at' i).toNat, by
    have hb := (hname i).bounds
    omega⟩
  have hinj : Function.Injective offset := by
    intro i j hij
    have hb := (hname i).bounds
    have hb' := (hname j).bounds
    have hat : at' i = at' j := by
      have hval := Fin.val_eq_of_eq hij
      simp only [offset] at hval
      omega
    have hi := hname i
    rw [hat] at hi
    exact Fin.ext (hi.steps_unique (hname j))
  have hcard := Fintype.card_le_of_injective offset hinj
  rw [Fintype.card_fin, Fintype.card_fin] at hcard
  exact hcard

end CompressedName

/-! ### The bytes that are counted -/

/-- The bytes from an offset up to and including the first zero or the first pointer. -/
def Consumed (buf : Response) (pos : Int) (m : Nat) : Prop :=
  ∃ j : Nat, (∀ i < j, ∃ c, fetch buf (pos + i) = some c ∧ c ≠ 0 ∧ c < 0xc0) ∧
    (fetch buf (pos + j) = some 0 ∧ m = j + 1 ∨
      (∃ c, 0xc0 ≤ c ∧ fetch buf (pos + j) = some c) ∧ m = j + 2)

namespace Consumed

/-- The name of the root has one byte. -/
theorem zero (hc : fetch buf pos = some 0) : Consumed buf pos 1 :=
  ⟨0, by simp, .inl ⟨by simpa using hc, rfl⟩⟩

/-- A pointer has two. -/
theorem pointer {c : UInt8} (hc : fetch buf pos = some c) (hle : 0xc0 ≤ c) : Consumed buf pos 2 :=
  ⟨0, by simp, .inr ⟨⟨c, hle, by simpa using hc⟩, rfl⟩⟩

/-- The bytes in front of the end are followed by others. -/
theorem le_of_end {j j' : Nat} {c : UInt8}
    (hbytes : ∀ i < j, ∃ c, fetch buf (pos + i) = some c ∧ c ≠ 0 ∧ c < 0xc0)
    (hc : fetch buf (pos + j') = some c) (hend : c = 0 ∨ 0xc0 ≤ c) : j ≤ j' := by
  by_contra hlt
  obtain ⟨c', hc', hne, hbyte⟩ := hbytes j' (Nat.lt_of_not_le hlt)
  rw [Option.some_inj.mp (hc.symm.trans hc')] at hend
  rcases hend with hzero | hle
  · exact hne hzero
  · exact absurd hle (UInt8.not_le.mpr hbyte)

/-- One byte more in front of a name. -/
theorem byte {c : UInt8} {m : Nat} (hc : fetch buf pos = some c) (hne : c ≠ 0) (hlt : c < 0xc0)
    (h : Consumed buf (pos + 1) m) : Consumed buf pos (m + 1) := by
  obtain ⟨j, hbytes, hend⟩ := h
  have hnext : ∀ i : Nat, pos + (i + 1 : Nat) = pos + 1 + i := by omega
  refine ⟨j + 1, fun i hi => ?_, ?_⟩
  · cases i with
    | zero => exact ⟨c, by simpa using hc, hne, hlt⟩
    | succ i =>
      rw [hnext]
      exact hbytes i (Nat.lt_of_succ_lt_succ hi)
  · rw [hnext]
    rcases hend with ⟨hzero, rfl⟩ | ⟨hpointer, rfl⟩
    · exact .inl ⟨hzero, rfl⟩
    · exact .inr ⟨hpointer, rfl⟩

/-- The byte at which the counting ends. -/
theorem exists_end {j m : Nat} (hend : fetch buf (pos + j) = some 0 ∧ m = j + 1 ∨
      (∃ c, 0xc0 ≤ c ∧ fetch buf (pos + j) = some c) ∧ m = j + 2) :
    ∃ c, fetch buf (pos + j) = some c ∧ (c = 0 ∧ m = j + 1 ∨ 0xc0 ≤ c ∧ m = j + 2) := by
  rcases hend with ⟨hc, hm⟩ | ⟨⟨c, hle, hc⟩, hm⟩
  · exact ⟨0, hc, .inl ⟨rfl, hm⟩⟩
  · exact ⟨c, hc, .inr ⟨hle, hm⟩⟩

/-- The number of the bytes is determined by the response: it goes up to the first pointer or to the
    terminator, whichever comes first. -/
theorem unique {m m' : Nat} (h : Consumed buf pos m) (h' : Consumed buf pos m') : m = m' := by
  obtain ⟨j, hbytes, hend⟩ := h
  obtain ⟨j', hbytes', hend'⟩ := h'
  -- each end is at or behind the other one
  obtain ⟨c, hc, hm⟩ := exists_end hend
  obtain ⟨c', hc', hm'⟩ := exists_end hend'
  have hj : j = j' := Nat.le_antisymm (le_of_end hbytes hc' (hm'.imp And.left And.left))
    (le_of_end hbytes' hc (hm.imp And.left And.left))
  subst hj
  rw [Option.some_inj.mp (hc'.symm.trans hc)] at hm'
  rcases hm with ⟨rfl, rfl⟩ | ⟨hle, rfl⟩
  · rcases hm' with ⟨-, rfl⟩ | ⟨hle, -⟩
    · rfl
    · exact absurd hle (by decide)
  · rcases hm' with ⟨rfl, -⟩ | ⟨-, rfl⟩
    · exact absurd hle (by decide)
    · rfl

end Consumed

/-! ### The loop of `read_name` -/

/-- The loop ends at a zero, and nowhere else. -/
theorem unread_eq_false {s : Scan} : unread buf s = false ↔ fetch buf s.reader = some 0 := by
  simp [unread]

/-- It goes on at any other byte. -/
theorem unread_of_ne {s : Scan} {c : UInt8} (hc : fetch buf s.reader = some c) (hne : c ≠ 0) :
    unread buf s = true := by
  simp [unread, hc, hne]

/-- The first half of a pointer is not the end. -/
theorem ne_zero_of_le {c : UInt8} (h : 0xc0 ≤ c) : c ≠ 0 := by
  rintro rfl
  exact absurd h (by decide)

/-- A byte is counted as long as no pointer was followed. -/
theorem countByte_eq {s : Scan} (h : s.jump ≤ 1) :
    countByte s = { s with n := s.n + (1 - s.jump) } := by
  rw [countByte]
  split
  · next h0 => rw [h0]
  · next h0 =>
    have h1 : 1 - s.jump = 0 := by omega
    rw [h1]
    rfl

/-- A round that copies a byte. -/
theorem readNameRound_byte {c : UInt8} (hc : fetch buf pos = some c) (hlt : c < 0xc0) (w : Mem)
    (x : Option UInt8) (post : Mem) (jump n : Nat) :
    readNameRound buf { reader := pos, name := w ++ x :: post, p := w.length, jump, n }
      = some (countByte { reader := pos + 1, name := w ++ some c :: post, p := w.length + 1
                          jump, n }) := by
  simp only [readNameRound, hc, Option.bind_some, if_neg (UInt8.not_le.mpr hlt), write_append,
    Option.map_some]

/-- A round that follows a pointer. -/
theorem readNameRound_pointer {c c' : UInt8} (hc : fetch buf pos = some c) (hle : 0xc0 ≤ c)
    (hc' : fetch buf (pos + 1) = some c') (name : Mem) (p jump n : Nat) :
    readNameRound buf { reader := pos, name, p, jump, n }
      = some { reader := pointer c c', name, p, jump := 1, n } := by
  simp only [readNameRound, hc, Option.bind_some, if_pos hle, hc', Option.map_some, countByte,
    Nat.one_ne_zero, if_false]

/-- **The loop on a name**: it copies the bytes, and before the first jump it counts them.  The
    induction is on the steps of the name; `w` is what was copied before. -/
theorem scan_name (h : CompressedName buf k pos bs) (w mid post : Mem) (jump n : Nat) {fuel : Nat}
    (hmid : mid.length = bs.length) (hjump : jump ≤ 1) (hfuel : k ≤ fuel) :
    ∃ s, run (unread buf) (readNameRound buf) fuel
        { reader := pos, name := w ++ (mid ++ post), p := w.length, jump, n } = some s ∧
      s.name = w ++ (bs.map some ++ post) ∧ s.p = w.length + bs.length ∧ s.jump ≤ 1 ∧
      (jump = 1 → s.jump = 1 ∧ s.n = n) ∧
      (jump = 0 → ∃ m, Consumed buf pos m ∧ s.n + s.jump + 1 = n + m) := by
  induction h generalizing w mid jump n fuel with
  | zero hc =>
    rw [List.length_nil, List.length_eq_zero_iff] at hmid
    subst hmid
    refine ⟨_, run_of_not (unread_eq_false.mpr hc), rfl, rfl, hjump, fun h => ⟨h, rfl⟩, fun h => ?_⟩
    exact ⟨1, .zero hc, by subst h; rfl⟩
  | @byte k pos c bs hc hne hlt _ ih =>
    -- the byte joins what has been copied, and is counted if there was no jump
    obtain ⟨x, mid, rfl⟩ := List.exists_cons_of_length_eq_add_one hmid
    obtain ⟨fuel, rfl⟩ : ∃ f, fuel = f + 1 := ⟨fuel - 1, by omega⟩
    have hround := readNameRound_byte hc hlt w x (mid ++ post) jump n
    have hcond := unread_of_ne (s := ⟨pos, w ++ x :: (mid ++ post), w.length, jump, n⟩) hc hne
    rw [List.cons_append, run_succ hcond hround]
    have hlen : w.length + 1 = (w ++ [some c]).length := by simp
    have hname : w ++ some c :: (mid ++ post) = (w ++ [some c]) ++ (mid ++ post) := by simp
    have hname' : w ++ ((c :: bs).map some ++ post) = (w ++ [some c]) ++ (bs.map some ++ post) := by
      simp
    have hp : w.length + (c :: bs).length = (w ++ [some c]).length + bs.length := by
      simp only [List.length_cons, List.length_append, List.length_nil]
      omega
    rw [countByte_eq hjump, hlen, hname, hname', hp]
    obtain ⟨s, hrun, hsname, hsp, hsjump, hjumped, hcount⟩ :=
      ih (w ++ [some c]) mid jump (n + (1 - jump)) (Nat.succ.inj hmid) hjump
        (Nat.le_of_succ_le_succ hfuel)
    refine ⟨s, hrun, hsname, hsp, hsjump, fun h => ?_, fun h => ?_⟩
    · obtain ⟨hsj, hsn⟩ := hjumped h
      exact ⟨hsj, by rw [hsn, h]; rfl⟩
    · obtain ⟨m, hm, hn⟩ := hcount h
      exact ⟨m + 1, hm.byte hc hne hlt, by omega⟩
  | @pointer k pos c c' bs hc hle hc' _ ih =>
    -- from here on nothing is counted, and the jump itself adds one at the end
    obtain ⟨fuel, rfl⟩ : ∃ f, fuel = f + 1 := ⟨fuel - 1, by omega⟩
    have hround := readNameRound_pointer hc hle hc' (w ++ (mid ++ post)) w.length jump n
    have hcond := unread_of_ne (s := ⟨pos, w ++ (mid ++ post), w.length, jump, n⟩) hc
      (ne_zero_of_le hle)
    rw [run_succ hcond hround]
    obtain ⟨s, hrun, hsname, hsp, hsjump, hcount, -⟩ :=
      ih w mid 1 n hmid (Nat.le_refl _) (Nat.le_of_succ_le_succ hfuel)
    obtain ⟨hsj, hsn⟩ := hcount rfl
    exact ⟨s, hrun, hsname, hsp, hsjump, fun _ => ⟨hsj, hsn⟩,
      fun _ => ⟨2, .pointer hc hle, by rw [hsj, hsn]⟩⟩

/-- Counting a byte changes the count only. -/
theorem exists_countByte (s : Scan) : ∃ n, countByte s = { s with n } := by
  rw [countByte]
  split
  · exact ⟨_, rfl⟩
  · exact ⟨s.n, rfl⟩

/-- A round that does not fail is a step of a name: it copies a byte, or follows a pointer and
    copies nothing. -/
theorem name_of_round {s t : Scan} (hcond : unread buf s = true)
    (hround : readNameRound buf s = some t) (h : CompressedName buf k t.reader bs) :
    ∃ bs', CompressedName buf (k + 1) s.reader bs' ∧ s.p + bs'.length = t.p + bs.length ∧
      s.name.length = t.name.length := by
  rw [readNameRound, Option.bind_eq_some_iff] at hround
  obtain ⟨c, hc, hround⟩ := hround
  have hne : c ≠ 0 := by
    rintro rfl
    rw [unread_eq_false.mpr hc] at hcond
    exact absurd hcond Bool.false_ne_true
  rw [Option.map_eq_some_iff] at hround
  obtain ⟨r, hround, rfl⟩ := hround
  obtain ⟨n, hn⟩ := exists_countByte r
  rw [hn] at h ⊢
  split at hround
  · next hle =>
    obtain ⟨c', hc', rfl⟩ := Option.map_eq_some_iff.mp hround
    exact ⟨bs, .pointer hc hle hc' h, rfl, rfl⟩
  · next hlt =>
    obtain ⟨name, hwrite, rfl⟩ := Option.map_eq_some_iff.mp hround
    refine ⟨c :: bs, .byte hc hne (UInt8.not_le.mp hlt) h, ?_, (length_write hwrite).2.symm⟩
    rw [List.length_cons, Nat.add_comm bs.length, ← Nat.add_assoc]

/-- **The loop ends on names only**: the rounds are the steps of a name, so that the fuel of a run
    that ends bounds them. -/
theorem name_of_scan {s t : Scan} {fuel : Nat}
    (hrun : run (unread buf) (readNameRound buf) fuel s = some t) :
    ∃ k bs, CompressedName buf k s.reader bs ∧ s.p + bs.length = t.p ∧
      s.name.length = t.name.length := by
  refine run_induction (P := fun s t => ∃ k bs, CompressedName buf k s.reader bs ∧
    s.p + bs.length = t.p ∧ s.name.length = t.name.length) (fun s hdone => ?_)
    (fun s r t _ hcond hround _ hrest => ?_) hrun
  · exact ⟨0, [], .zero (unread_eq_false.mp hdone), rfl, rfl⟩
  · obtain ⟨k, bs, hname, hp, hlen⟩ := hrest
    obtain ⟨bs', hname', hp', hlen'⟩ := name_of_round hcond hround hname
    exact ⟨k + 1, bs', hname', hp'.trans hp, hlen'.trans hlen⟩

/-! ### `read_name` -/

/-- **The scan of a name** writes its bytes with a terminator behind them, and nothing else. -/
theorem readNameScan_name (h : CompressedName buf k pos bs) (name : Mem)
    (hname : bs.length < name.length) {fuel : Nat} (hfuel : k ≤ fuel) :
    ∃ m, Consumed buf pos m ∧
      readNameScan fuel buf pos name = some (cstr bs ++ name.drop (bs.length + 1), m) := by
  obtain ⟨mid, x, hsplit, hmid⟩ := exists_split name hname
  obtain ⟨s, hrun, hsname, hsp, -, -, hcount⟩ :=
    scan_name h [] mid (x :: name.drop (bs.length + 1)) 0 1 hmid (Nat.zero_le 1) hfuel
  obtain ⟨m, hm, hn⟩ := hcount rfl
  have hwrite := write_append (bs.map some) x (name.drop (bs.length + 1)) 0
  have hcount : s.n + s.jump = m := by omega
  refine ⟨m, hm, ?_⟩
  rw [List.length_map] at hwrite
  simp only [List.nil_append, List.length_nil, Nat.zero_add, ← hsplit] at hrun hsname hsp
  rw [readNameScan, hrun, Option.bind_some, hsname, hsp, hwrite, Option.map_some, cstr_append,
    hcount]

/-- What a caller needs: the loop ends, without an access outside of the response or of the name. -/
def InBounds (buf : Response) (start : Fin 65536) (name : Mem) : Prop :=
  ∃ rounds bs n, bs.length ≤ 255 ∧
    readNameScan rounds buf start name = some (cstr bs ++ name.drop (bs.length + 1), n)

/-- **The scan is in bounds** exactly if there is a name of at most 255 bytes at the offset, and
    then it ends within 65535 rounds. -/
theorem scan_in_bounds (buf : Response) (start : Fin 65536) {name : Mem}
    (hname : name.length = 256) :
    (InBounds buf start name ↔ ∃ k bs, CompressedName buf k start bs ∧ bs.length ≤ 255) ∧
    (InBounds buf start name → ∃ bs n, bs.length ≤ 255 ∧
      readNameScan 65535 buf start name = some (cstr bs ++ name.drop (bs.length + 1), n)) := by
  have hmp : InBounds buf start name →
      ∃ k bs, CompressedName buf k start bs ∧ bs.length ≤ 255 := by
    rintro ⟨rounds, bs, n, -, hscan⟩
    rw [readNameScan, Option.bind_eq_some_iff] at hscan
    obtain ⟨s, hrun, hwrite⟩ := hscan
    -- the terminator is stored in the name, so there are at most 255 bytes in front of it
    obtain ⟨name', hwrite, -⟩ := Option.map_eq_some_iff.mp hwrite
    obtain ⟨k, bs', hname', hp, hlen⟩ := name_of_scan hrun
    have hroom := (length_write hwrite).1
    simp only [Nat.zero_add] at hp hlen
    exact ⟨k, bs', hname', by omega⟩
  have hmpr : (∃ k bs, CompressedName buf k start bs ∧ bs.length ≤ 255) → ∃ bs n, bs.length ≤ 255 ∧
      readNameScan 65535 buf start name = some (cstr bs ++ name.drop (bs.length + 1), n) := by
    rintro ⟨k, bs, h, hle⟩
    obtain ⟨m, -, hscan⟩ := readNameScan_name h name (by omega)
      (Nat.le_of_lt_succ h.steps_lt)
    exact ⟨bs, m, hle, hscan⟩
  exact ⟨⟨hmp, fun h => ⟨65535, hmpr h⟩⟩, fun h => hmpr (hmp h)⟩

/-- A name with a pointer: `1 b`, and `1 a` at the beginning of the response. -/
def twoLabels : Response := fun k =>
  match k.val with
  | 0 => 1 | 1 => 0x61
  | 12 => 1 | 13 => 0x62 | 14 => 0xc0
  | _ => 0

/-- The second name is a label and a pointer to the first one. -/
theorem name_twoLabels : CompressedName twoLabels 5 12 [1, 0x62, 1, 0x61] := by
  have hrest : CompressedName twoLabels 2 (pointer 0xc0 0) [1, 0x61] := by
    rw [pointer_c0]
    exact .byte (by decide) (by decide) (by decide) <| .byte (by decide) (by decide) (by decide) <|
      .zero (by decide)
  exact .byte (by decide) (by decide) (by decide) <| .byte (by decide) (by decide) (by decide) <|
    .pointer (by decide) (by decide) (by decide) hrest

/-- The scan of the second name stays in its buffer. -/
theorem scan_in_bounds_twoLabels :
    (malloc 256).length = 256 ∧ InBounds twoLabels 12 (malloc 256) :=
  ⟨List.length_replicate, (scan_in_bounds twoLabels 12 List.length_replicate).1.mpr
    ⟨5, _, name_twoLabels, by decide⟩⟩

/-- A response with a pointer to itself. -/
def selfPointer : Response := fun k =>
  match k.val with
  | 12 => 0xc0 | 13 => 0x0c
  | _ => 0

/-- A pointer to itself leads back to the same place, and nothing is copied. -/
theorem readNameRound_selfPointer (name : Mem) (p jump n : Nat) :
    readNameRound selfPointer { reader := 12, name, p, jump, n }
      = some { reader := 12, name, p, jump := 1, n } := by
  have hround : readNameRound selfPointer { reader := 12, name, p, jump, n }
      = some { reader := pointer 0xc0 0x0c, name, p, jump := 1, n } :=
    readNameRound_pointer (by decide) (by decide) (by decide) name p jump n
  rw [pointer_c0] at hround
  exact hround

/-- So the loop does not end for it, whatever the fuel. -/
theorem readNameScan_selfPointer (fuel : Nat) (name : Mem) :
    readNameScan fuel selfPointer 12 name = none := by
  rw [readNameScan, run_diverges (I := fun s => s.reader = 12) ?_ ?_ rfl, Option.bind_none]
  · rintro ⟨reader, name, p, jump, n⟩ rfl
    have hc : fetch selfPointer 12 = some 0xc0 := by decide
    exact unread_of_ne hc (by decide)
  · rintro ⟨reader, name, p, jump, n⟩ t rfl hround
    rw [readNameRound_selfPointer, Option.some_inj] at hround
    rw [← hround]

/-- Without a zero in the response the loop does not end. -/
theorem readNameScan_const {c : UInt8} (hc : c ≠ 0) (fuel : Nat) (pos : Int) (name : Mem) :
    readNameScan fuel (fun _ => c) pos name = none := by
  rw [readNameScan, run_diverges (I := fun _ => True) (fun s _ => ?_) (fun _ _ _ _ => trivial)
    trivial, Option.bind_none]
  have hne : fetch (fun _ => c) s.reader ≠ some 0 := by
    rw [fetch]
    split
    · exact fun h => hc (Option.some_inj.mp h)
    · simp
  exact decide_eq_true hne

/-- The pointer at offset 12 leads to offset 12 again and again.  A response of letters is copied to
    the byte behind the name, and a pointer at the last offset reads the byte behind the
    response. -/
theorem scan_in_bounds_failed :
    (∀ name p jump n, readNameRound selfPointer { reader := 12, name, p, jump, n }
      = some { reader := 12, name, p, jump := 1, n }) ∧
    (∀ fuel name, readNameScan fuel selfPointer 12 name = none) ∧
    (∀ name, ¬ InBounds selfPointer 12 name) ∧
    (∀ (name : Mem) (jump n : Nat), name.length = 256 →
      readNameRound (fun _ => 0x61) { reader := 256, name, p := 256, jump, n } = none) ∧
    (∀ start name, ¬ InBounds (fun _ => 0x61) start name) ∧
    (∀ name p jump n,
      readNameRound (fun _ => 0xc0) { reader := 65535, name, p, jump, n } = none) := by
  refine ⟨readNameRound_selfPointer, readNameScan_selfPointer, ?_, fun name jump n hname => ?_, ?_,
    fun name p jump n => ?_⟩
  -- the pointer to itself is followed for ever
  · rintro name ⟨rounds, bs, n, -, hscan⟩
    have hnone : readNameScan rounds selfPointer ((12 : Fin 65536) : Int) name = none :=
      readNameScan_selfPointer rounds name
    rw [hnone] at hscan
    simp only [reduceCtorEq] at hscan
  -- a name of more than 256 bytes leaves `name`
  · have hfetch : fetch (fun _ => 0x61) 256 = some 0x61 := by decide
    have hwrite : write name 256 0x61 = none := by rw [write, if_neg (by omega)]
    rw [readNameRound, hfetch, Option.bind_some, if_neg (by decide), hwrite]
    rfl
  · rintro start name ⟨rounds, bs, n, -, hscan⟩
    rw [readNameScan_const (by decide)] at hscan
    simp only [reduceCtorEq] at hscan
  -- a pointer whose second byte is behind the buffer
  · have hfetch : fetch (fun _ => 0xc0) 65535 = some 0xc0 := by decide
    have hout : fetch (fun _ => 0xc0) (65535 + 1) = none := by decide
    rw [readNameRound, hfetch, Option.bind_some, if_pos (by decide), hout]
    rfl

/-! ### `ReadName` -/

/-- The `- 1` of a jump is undone at the end of the round. -/
theorem ReadName.round_eq : ReadName.round buf = readNameRound buf := by
  funext s
  refine Option.bind_congr fun c _ => ?_
  by_cases hle : 0xc0 ≤ c
  · rw [if_pos hle, if_pos hle]
    simp only [Option.map_map, Function.comp_def, Int.sub_add_cancel]
  · rw [if_neg hle, if_neg hle]
    simp only [Option.map_map, Function.comp_def]

/-- `jump` is a flag. -/
theorem jump_le_of_round {s t : Scan} (hs : s.jump ≤ 1) (hround : readNameRound buf s = some t) :
    t.jump ≤ 1 := by
  rw [readNameRound, Option.bind_eq_some_iff] at hround
  obtain ⟨c, -, hround⟩ := hround
  rw [Option.map_eq_some_iff] at hround
  obtain ⟨r, hround, rfl⟩ := hround
  obtain ⟨n, hn⟩ := exists_countByte r
  rw [hn]
  split at hround
  · obtain ⟨c', -, rfl⟩ := Option.map_eq_some_iff.mp hround
    exact Nat.le_refl 1
  · obtain ⟨name, -, rfl⟩ := Option.map_eq_some_iff.mp hround
    exact hs

/-- **`ReadName` scans as `read_name` does**, in the buffer that it allocates. -/
theorem ReadName.scan_eq (fuel : Nat) (buf : Response) (pos : Int) :
    ReadName.scan fuel buf pos = readNameScan fuel buf pos (some 0 :: malloc 255) := by
  have hzero : write (malloc 256) 0 0 = some (some 0 :: malloc 255) :=
    write_append [] none (malloc 255) 0
  rw [ReadName.scan, hzero, Option.bind_some, ReadName.round_eq, readNameScan]
  refine Option.bind_congr fun s hrun => ?_
  -- `if(jumped==1)` and `n+=jump` are the same, since `jump` is a flag
  have hjump : s.jump ≤ 1 := by
    refine run_induction (P := fun s t => s.jump ≤ 1 → t.jump ≤ 1) (fun _ _ h => h)
      (fun s r t _ _ hround _ hrest h => hrest (jump_le_of_round h hround)) hrun (Nat.zero_le 1)
  have hcount : (if s.jump = 1 then s.n + 1 else s.n) = s.n + s.jump := by
    split <;> omega
  rw [hcount]

/-- **The two loops agree** on a name of at most 255 bytes: they store its bytes, and count those up
    to the first zero or pointer. -/
theorem scans_agree (start : Fin 65536) (h : CompressedName buf k start bs)
    (hle : bs.length ≤ 255) (name : Mem) (hname : name.length = 256) {fuel : Nat}
    (hfuel : 65535 ≤ fuel) :
    ∃ m, Consumed buf start m ∧
      readNameScan fuel buf start name = some (cstr bs ++ name.drop (bs.length + 1), m) ∧
      ReadName.scan fuel buf start = some (cstr bs ++ (malloc 256).drop (bs.length + 1), m) := by
  have hsteps : k ≤ fuel := Nat.le_trans (Nat.le_of_lt_succ h.steps_lt) hfuel
  have hroom : bs.length < (some 0 :: malloc 255).length := by
    rw [List.length_cons, malloc, List.length_replicate]
    omega
  obtain ⟨m, hm, hscan⟩ := readNameScan_name h name (by omega) hsteps
  obtain ⟨m', hm', hscan'⟩ := readNameScan_name h _ hroom hsteps
  refine ⟨m, hm, hscan, ?_⟩
  rw [hm'.unique hm] at hscan'
  rw [ReadName.scan_eq, hscan', List.drop_succ_cons]
  rfl

/-- The four bytes of `twoLabels` at offset 12, with the pointer. -/
theorem scans_agree_twoLabels : Consumed twoLabels 12 4 ∧ ∃ m, Consumed twoLabels 12 m ∧
    readNameScan 65535 twoLabels 12 (malloc 256)
      = some (cstr [1, 0x62, 1, 0x61] ++ (malloc 256).drop 5, m) ∧
    ReadName.scan 65535 twoLabels 12 = some (cstr [1, 0x62, 1, 0x61] ++ (malloc 256).drop 5, m) :=
  ⟨.byte (c := 1) (by decide) (by decide) (by decide) <|
      .byte (c := 0x62) (by decide) (by decide) (by decide) <|
        .pointer (c := 0xc0) (by decide) (by decide),
    scans_agree 12 name_twoLabels (by decide) (malloc 256) List.length_replicate (Nat.le_refl _)⟩

/-! ### From the response to the host name -/

/-- **`read_name` on a host name** of two labels or more, which the response has with or without
    pointers. -/
theorem readName_labels {l l' : List UInt8} {ls : List (List UInt8)}
    (hls : ∀ l'' ∈ l :: l' :: ls, Label l'')
    (h : CompressedName buf k pos (encoded (l :: l' :: ls)))
    (hle : (encoded (l :: l' :: ls)).length ≤ 255) {name : Mem} (hname : name.length = 256)
    {fuel : Nat} (hfuel : 65535 ≤ fuel) :
    ∃ m, Consumed buf pos m ∧ readName fuel buf pos name
      = some (cstr (host (l :: l' :: ls)) ++
          some 0 :: name.drop ((encoded (l :: l' :: ls)).length + 1), m) := by
  have hsteps : k ≤ fuel := Nat.le_trans (Nat.le_of_lt_succ h.steps_lt) hfuel
  obtain ⟨m, hm, hscan⟩ := readNameScan_name h name (by omega) hsteps
  have hlen : (encoded (l :: l' :: ls)).length = (host (l :: l' :: ls)).length + 1 := length_encoded
  have hrounds : (l' :: ls).length ≤ (host (l :: l' :: ls)).length := length_le_host
  rw [List.length_cons] at hrounds
  refine ⟨m, hm, ?_⟩
  rw [readName, hscan, Option.bind_some, nameDecode_labels hls (by omega) (by omega),
    Option.map_some]

end CPlayground.DnsName
