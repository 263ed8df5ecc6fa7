import CPlayground.Codec.DnsReader
import CPlayground.Codec.DnsEncoders

namespace CPlayground.DnsName

open Loop Memory

/-!
# `ReadName`: from counts to dots

Behind its scan `ReadName` has a loop of its own for what `name_decode` does: it moves every label
one byte to the left, over its count, and puts a dot behind it; at the end the last dot becomes
the terminator.

* `ReadName.convertLoop` — the loop turns the encoded name into the labels with a dot behind each.
* `ReadName.convert_labels` — on a name of two labels or more the buffer is the one `name_decode`
  leaves; a name of one label, on which `name_decode` fails, is converted, too.
* `ReadName.read_root` — the name of the root has no last dot: the terminator is written in
  front of the buffer.
* `ReadName.readers_agree` — `ReadName` reads every name, and `read_name` agrees from two labels on.
-/

namespace ReadName

/-- The variables of the loop: the buffer and `i`. -/
structure Converter where
  name : Mem
  i : Nat

/-- The inner loop, with `j` rounds to go: `name[i]=name[i+1]` and `i=i+1`. -/
def shift : Nat → Converter → Option Converter
  | 0,     s => some s
  | j + 1, s => (load s.name (s.i + 1)).bind fun c => (write s.name s.i c).bind fun name =>
      shift j { name, i := s.i + 1 }

/-- The condition of the loop.  A buffer without a terminator makes a round that fails. -/
def unconverted (s : Converter) : Bool :=
  match strlen s.name with
  | some len => (s.i : Int) < toInt len
  | none     => true

/-- The body of the loop, with the `i++` behind it. -/
def convertRound (s : Converter) : Option Converter :=
  (strlen s.name).bind fun _ => (load s.name s.i).bind fun p => (shift p.toNat s).bind fun s =>
    (write s.name s.i dot).map fun name => { name, i := s.i + 1 }

/-- The conversion, for at most `fuel` rounds of the loop: the buffer. -/
def convert (fuel : Nat) (name : Mem) : Option Mem :=
  (run unconverted convertRound fuel { name, i := 0 }).bind fun s =>
    if s.i = 0 then none else write s.name (s.i - 1) 0

/-- `ReadName(reader, buffer, count)`: the name and `*count`. -/
def read (fuel : Nat) (buf : Response) (reader : Int) : Option (Mem × Nat) :=
  (scan fuel buf reader).bind fun r => (convert fuel r.1).map fun name => (name, r.2)

variable {l l' : List UInt8} {ls : List (List UInt8)} {fuel : Nat}

/-- The inner loop moves the bytes behind `i`; the last of them stays where it was, too. -/
theorem shift_eq (front : Mem) (x : Option UInt8) (cs : List UInt8) (post : Mem) :
    ∃ y, shift cs.length { name := front ++ x :: (cs.map some ++ post), i := front.length }
      = some { name := front ++ cs.map some ++ y :: post, i := front.length + cs.length } := by
  induction cs generalizing front x with
  | nil => exact ⟨x, by simp [shift]⟩
  | cons c cs ih =>
    have hload := load_append (front ++ [x]) c (cs.map some ++ post)
    rw [List.length_append, List.append_assoc] at hload
    obtain ⟨y, hy⟩ := ih (front ++ [some c]) (some c)
    refine ⟨y, ?_⟩
    simp only [List.length_cons, List.length_nil, List.map_cons, List.cons_append, List.nil_append,
      List.append_assoc, List.length_append, Nat.zero_add] at hload hy ⊢
    rw [shift]
    simp only [hload, write_append, Option.bind_some, hy, Nat.add_assoc, Nat.add_comm 1]

/-- A round turns the count of a label into the dot behind it: the characters of the label move to
    the front, one by one. -/
theorem convertRound_label (front : List UInt8) (hl : Label l) {rest : List UInt8} (post : Mem)
    (hzero : 0 ∉ front ++ (count l :: l ++ rest)) :
    convertRound { name := cstr (front ++ (count l :: l ++ rest)) ++ post, i := front.length }
      = some { name := cstr (front ++ l ++ dot :: rest) ++ post
               i := (front ++ l ++ [dot]).length } := by
  have hname : cstr (front ++ (count l :: l ++ rest)) ++ post
      = front.map some ++ some (count l) :: (l.map some ++ (cstr rest ++ post)) := by
    simp [cstr]
  have hload := load_append (front.map some) (count l) (l.map some ++ (cstr rest ++ post))
  obtain ⟨y, hshift⟩ := shift_eq (front.map some) (some (count l)) l (cstr rest ++ post)
  have hwrite := write_append ((front ++ l).map some) y (cstr rest ++ post) dot
  simp only [List.length_map, List.length_append, List.map_append] at hload hshift hwrite
  rw [convertRound, strlen_append hzero, hname]
  simp only [hload, toNat_count hl, hshift, hwrite, Option.bind_some, Option.map_some]
  simp [cstr, Nat.add_assoc]

/-- **The loop** converts the labels that are left.  The invariant is the buffer itself: in front of
    `i` there are labels with dots, and from `i` on labels with counts. -/
theorem convertLoop (front : List UInt8) (post : Mem) (hls : ∀ l ∈ ls, Label l) (hfront : 0 ∉ front)
    (hlen : (front ++ encoded ls).length < 2 ^ 31) (hfuel : ls.length ≤ fuel) :
    run unconverted convertRound fuel
        { name := cstr (front ++ encoded ls) ++ post, i := front.length }
      = some { name := cstr (front ++ dotted ls) ++ post, i := (front ++ dotted ls).length } := by
  -- the labels in front of `i` are converted already: `front` has no zero and ends with a dot
  induction ls generalizing front fuel with
  | nil =>
    have hnil : front ++ encoded [] = front := List.append_nil front
    have hdone : unconverted { name := cstr front ++ post, i := front.length } = false := by
      rw [hnil] at hlen
      simp only [unconverted, strlen_append hfront, toInt_eq hlen, Int.lt_irrefl, decide_false]
    rw [hnil, run_of_not hdone]
    simp [dotted]
  | cons l ls ih =>
    rw [List.forall_mem_cons] at hls
    obtain ⟨fuel, rfl⟩ : ∃ k, fuel = k + 1 := ⟨fuel - 1, by simp at hfuel; omega⟩
    have hzero : 0 ∉ front ++ encoded (l :: ls) := by
      rw [List.mem_append, not_or]
      exact ⟨hfront, zero_not_mem_encoded (List.forall_mem_cons.mpr hls)⟩
    have hgo : unconverted { name := cstr (front ++ encoded (l :: ls)) ++ post, i := front.length }
        = true := by
      simp only [unconverted, strlen_append hzero, toInt_eq hlen, decide_eq_true_eq]
      simp [encoded_cons]
      omega
    rw [encoded_cons] at hzero hgo hlen ⊢
    have hround := convertRound_label front hls.1 post hzero
    have hnext : front ++ l ++ dot :: encoded ls = front ++ l ++ [dot] ++ encoded ls := by simp
    rw [hnext] at hround
    have hdots : front ++ dotted (l :: ls) = front ++ l ++ [dot] ++ dotted ls := by
      rw [dotted_cons]
      simp
    -- one round turns the count of the next label into a dot behind it
    rw [run_succ hgo hround, hdots]
    refine ih _ hls.2 ?_ (by simp at hlen ⊢; omega) (by simp at hfuel; omega)
    simp only [List.mem_append, not_or, List.mem_singleton]
    exact ⟨⟨hfront, hls.1.zero_not_mem⟩, by decide⟩

/-- **The conversion** of a name of one label or more: the loop leaves a dot behind every label, and
    the last one becomes the terminator. -/
theorem convert_labels (hls : ∀ l' ∈ l :: ls, Label l')
    (hlen : (encoded (l :: ls)).length < 2 ^ 31) (hfuel : ls.length < fuel) (rest : Mem) :
    convert fuel (cstr (encoded (l :: ls)) ++ rest)
      = some (cstr (host (l :: ls)) ++ some 0 :: rest) := by
  have hloop := convertLoop [] rest hls List.not_mem_nil hlen hfuel
  rw [List.nil_append, List.nil_append, List.length_nil, ← host_append_dot] at hloop
  have hwrite := write_append ((host (l :: ls)).map some) (some dot) (some 0 :: rest) 0
  rw [List.length_map] at hwrite
  rw [convert, hloop, Option.bind_some, if_neg (by simp), List.length_append, List.length_singleton,
    Nat.add_sub_cancel, cstr_append, List.map_append, List.append_assoc]
  simpa [cstr] using hwrite

/-- The conversion of the name of the root: no round, and no dot that could become the
    terminator. -/
theorem convert_nil (fuel : Nat) (rest : Mem) : convert fuel (cstr [] ++ rest) = none := by
  have hdone : unconverted { name := cstr [] ++ rest, i := 0 } = false := by
    have hlen : strlen (cstr [] ++ rest) = some 0 := strlen_append List.not_mem_nil rest
    simp only [unconverted, hlen]
    rfl
  rw [convert, run_of_not hdone, Option.bind_some, if_pos rfl]

/-- `name_decode` on one label, with a byte behind the terminator that was never written. -/
theorem nameDecode_label (hl : Label l) (rest : Mem) :
    nameDecode fuel none (cstr (encoded [l]) ++ none :: rest) = none := by
  have hbuf : cstr (encoded [l]) ++ none :: rest
      = (some (count l) :: l.map some) ++ some 0 :: none :: rest := by
    rw [cstr_append, encoded_singleton]
    rfl
  have hn : 0 + (count l + 1).toNat = (some (count l) :: l.map some).length := by
    rw [toNat_count_add_one hl, List.length_cons, List.length_map, Nat.zero_add]
  have hzero : 0 ∉ encoded [l] := zero_not_mem_encoded (by simpa using hl)
  have hderef : deref (cstr (encoded [l]) ++ none :: rest) = some (count l) := by
    rw [hbuf]
    rfl
  -- the terminator is taken for the count of another label
  have hround : decodeRound { dst := cstr (encoded [l]) ++ none :: rest, p := 0, n := count l + 1
                              go := true } = none := by
    have hbehind : (some (count l) :: l.map some).length + ((0 : UInt8) + 1).toNat
        = ((some (count l) :: l.map some) ++ [some dot]).length := by
      rw [List.length_append]
      rfl
    have hload : load ((some (count l) :: l.map some) ++ some dot :: none :: rest)
        ((some (count l) :: l.map some).length + ((0 : UInt8) + 1).toNat) = none := by
      rw [hbehind, load, List.append_cons _ (some dot) (none :: rest), List.drop_left]
      rfl
    simp only [decodeRound, hn, hbuf, load_append, write_append, Option.bind_some, hload,
      Option.map_none]
  rw [nameDecode, strlen_append hzero, Option.bind_some, hderef, Option.bind_some, Option.bind_some,
    run_eq_none rfl hround, Option.bind_none]

/-! ### The two readers -/

variable {buf : Response} {k m : Nat} {pos : Int} {bs : List UInt8}

/-- The 256 bytes that both readers leave for a name. -/
def named (ls : List (List UInt8)) : Mem :=
  cstr (host ls) ++ some 0 :: (malloc 256).drop ((encoded ls).length + 1)

/-- Every name has an end in front of the first pointer or behind the first zero. -/
theorem exists_consumed (h : CompressedName buf k pos bs) : ∃ m, Consumed buf pos m := by
  obtain ⟨m, hm, -⟩ := readNameScan_name h (List.replicate (bs.length + 1) none) (by simp)
    (Nat.le_refl k)
  exact ⟨m, hm⟩

/-- The scan of `read_name` into 256 bytes that were never written. -/
theorem readNameScan_malloc (h : CompressedName buf k pos bs) (hle : bs.length ≤ 255)
    (hm : Consumed buf pos m) (hfuel : 65535 ≤ fuel) :
    readNameScan fuel buf pos (malloc 256)
      = some (cstr bs ++ (malloc 256).drop (bs.length + 1), m) := by
  have hroom : bs.length < (malloc 256).length := by
    rw [malloc, List.length_replicate]
    omega
  obtain ⟨m', hm', hscan⟩ := readNameScan_name h (malloc 256) hroom
    (Nat.le_trans (Nat.le_of_lt_succ h.steps_lt) hfuel)
  rw [hscan, hm'.unique hm]

/-- The scan of `ReadName`, which writes a zero into its first byte before it. -/
theorem scan_malloc (h : CompressedName buf k pos bs) (hle : bs.length ≤ 255)
    (hm : Consumed buf pos m) (hfuel : 65535 ≤ fuel) :
    scan fuel buf pos = some (cstr bs ++ (malloc 256).drop (bs.length + 1), m) := by
  have hroom : bs.length < (some 0 :: malloc 255).length := by
    rw [List.length_cons, malloc, List.length_replicate]
    omega
  obtain ⟨m', hm', hscan⟩ := readNameScan_name h (some 0 :: malloc 255) hroom
    (Nat.le_trans (Nat.le_of_lt_succ h.steps_lt) hfuel)
  rw [scan_eq, hscan, hm'.unique hm, List.drop_succ_cons]
  rfl

/-- `ReadName` on a name of one label or more. -/
theorem read_labels (hls : ∀ l' ∈ l :: ls, Label l')
    (h : CompressedName buf k pos (encoded (l :: ls))) (hle : (encoded (l :: ls)).length ≤ 255)
    (hm : Consumed buf pos m) (hfuel : 65535 ≤ fuel) :
    read fuel buf pos = some (named (l :: ls), m) := by
  have hlen : (encoded (l :: ls)).length = (host (l :: ls)).length + 1 := length_encoded
  have hrounds : ls.length ≤ (host (l :: ls)).length := length_le_host
  rw [read, scan_malloc h hle hm hfuel, Option.bind_some, convert_labels hls (by omega) (by omega),
    Option.map_some]
  rfl

/-- **The root.**  On the name without labels `ReadName` writes in front of its buffer, also when a
    pointer leads to it. -/
theorem read_root (h : CompressedName buf k pos []) (hfuel : 65535 ≤ fuel) :
    read fuel buf pos = none := by
  obtain ⟨m, hm⟩ := exists_consumed h
  rw [read, scan_malloc h (Nat.zero_le _) hm hfuel, Option.bind_some, convert_nil, Option.map_none]

/-- `read_name` on a name of two labels or more. -/
theorem readName_named (hls : ∀ l'' ∈ l :: l' :: ls, Label l'')
    (h : CompressedName buf k pos (encoded (l :: l' :: ls)))
    (hle : (encoded (l :: l' :: ls)).length ≤ 255) (hm : Consumed buf pos m)
    (hfuel : 65535 ≤ fuel) :
    readName fuel buf pos (malloc 256) = some (named (l :: l' :: ls), m) := by
  have hlen : (malloc 256).length = 256 := List.length_replicate
  obtain ⟨m', hm', hread⟩ := readName_labels hls h hle hlen hfuel
  rw [hread, hm'.unique hm]
  rfl

/-- `read_name` on a name of one label. -/
theorem readName_label (hl : Label l) (h : CompressedName buf k pos (encoded [l]))
    (hfuel : 65535 ≤ fuel) : readName fuel buf pos (malloc 256) = none := by
  have hlen : (encoded [l]).length ≤ 64 := by
    have hlabel := hl.length_le
    rw [length_encoded, host_singleton]
    omega
  have hrest : (malloc 256).drop ((encoded [l]).length + 1)
      = none :: (malloc 256).drop ((encoded [l]).length + 2) := by
    have hleft : 256 - ((encoded [l]).length + 1) = 256 - ((encoded [l]).length + 2) + 1 := by omega
    rw [malloc, List.drop_replicate, List.drop_replicate, hleft, List.replicate_succ]
  obtain ⟨m, hm⟩ := exists_consumed h
  rw [readName, readNameScan_malloc h (by omega) hm hfuel, Option.bind_some, hrest,
    nameDecode_label hl, Option.map_none]

/-- **The two readers** on a name of one label or more: `ReadName` gives the host name and the
    number of bytes up to the first zero or pointer; `read_name` gives the same if there are two
    labels, and looks behind the terminator if there is one. -/
theorem readers_agree (hls : ∀ l' ∈ l :: ls, Label l')
    (h : CompressedName buf k pos (encoded (l :: ls))) (hle : (encoded (l :: ls)).length ≤ 255)
    (hfuel : 65535 ≤ fuel) :
    ∃ m, Consumed buf pos m ∧
      read fuel buf pos = some (cstr (host (l :: ls)) ++
        some 0 :: (malloc 256).drop ((encoded (l :: ls)).length + 1), m) ∧
      readName fuel buf pos (malloc 256) = if ls = [] then none else read fuel buf pos := by
  obtain ⟨m, hm⟩ := exists_consumed h
  have hread := read_labels hls h hle hm hfuel
  refine ⟨m, hm, hread, ?_⟩
  cases ls with
  | nil => rw [if_pos rfl, readName_label (hls l List.mem_cons_self) h hfuel]
  | cons l' ls => rw [if_neg (List.cons_ne_nil _ _), hread, readName_named hls h hle hm hfuel]

/-- The two labels of `twoLabels`, and the second of them alone. -/
theorem readers_agree_twoLabels :
    (∃ m, read 65535 twoLabels 12
      = some (cstr [0x62, dot, 0x61] ++ some 0 :: (malloc 256).drop 5, m)) ∧
    readName 65535 twoLabels 0 (malloc 256) = none := by
  have hboth : CompressedName twoLabels 5 12 (encoded [[0x62], [0x61]]) := name_twoLabels
  have hsecond : CompressedName twoLabels 2 0 (encoded [[0x61]]) :=
    .byte (c := 1) (by decide) (by decide) (by decide) <|
      .byte (c := 0x61) (by decide) (by decide) (by decide) <| .zero (by decide)
  obtain ⟨m, -, hread, -⟩ := readers_agree (by decide) hboth (by decide) (Nat.le_refl 65535)
  obtain ⟨-, -, -, hsingle⟩ := readers_agree (by decide) hsecond (by decide) (Nat.le_refl 65535)
  exact ⟨⟨m, hread⟩, hsingle⟩

end ReadName

end CPlayground.DnsName
