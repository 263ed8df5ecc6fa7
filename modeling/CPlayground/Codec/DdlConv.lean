import CPlayground.Lib.CInt
import CPlayground.Lib.CString
import CPlayground.Lib.CType
import CPlayground.Lib.Memory
import CPlayground.Lib.Words

namespace CPlayground.DdlConv

open CInt CString CType Memory Words

/-!
# `ddl_conv.c`

Each line of a table definition is scanned for the name of a column and for its type.  The loops
test their pointers instead of the characters, so it is white space that ends them.  The memory of
a line ends with its terminator: a pointer that comes behind it has no value.

* `handleKey_eq` — `handle_key` needs white space behind the name, and makes it one longer if it
  takes an underscore out.
* `nextItem_eq`, `nextItem_eq_none` — `next_item` needs white space behind the word, and no more
  of it than `jump` can count.
* `convLine_iff` — what a line has to have for all scanners to stay in it; with a newline at its
  end, it is a character that is not white space (`convLine_newline_iff`).
-/

/-! ### Characters -/

/-- `UNDERSCORE`. -/
def underscore : UInt8 := '_'.toUInt8

/-- `SPACE`. -/
def space : UInt8 := ' '.toUInt8

/-! ### The functions -/

/-- The loop of `next_item` on the memory `m`, with the part of it from `s` on. -/
def nextLoop (m : Mem) : Mem → Nat → Int → Option (Mem × Nat)
  | some c :: rest, s, jump =>
    -- the first white space ends the first item; the others are only counted
    if jump = 0 ∧ isspace c then (write m s 0).bind fun m => nextLoop m rest (s + 1) 1
    else if jump > 0 then
      if isspace c then (checked (jump + 1)).bind fun jump => nextLoop m rest (s + 1) jump
      else some (m, s)
    -- also at the terminator, which is no white space
    else nextLoop m rest (s + 1) jump
  | _, _, _ => none

/-- `next_item(s)`: the memory, and the pointer. -/
def nextItem (m : Mem) (s : Nat) : Option (Mem × Nat) := nextLoop m (m.drop s) s 0

/-- The loop of `handle_key`, on the memory from `e` on: `e` and `d`. -/
def keyLoop : Mem → Nat → Option Nat → Option (Nat × Option Nat)
  | some c :: rest, e, d =>
    if isspace c then some (e, d)
    else keyLoop rest (e + 1) (if c = underscore then some e else d)
  | _, _, _ => none

/-- The last part of `handle_key`, which takes the underscore at `d` out. -/
def squeeze (m : Mem) (e : Nat) : Option Nat → Option Mem
  | none   => some m
  | some d => (load m (d + 1)).bind fun c =>
    -- behind the underscore there may be the white space at `e`
    if c = 0 then some m
    else (write m (d + 1) (toupper c)).bind fun m =>
      (memcpy m d (m.drop (d + 1)) (e - d - 1)).bind fun m => write m (e - 1) space

/-- `handle_key(s)`: the memory.  What it returns is `s`. -/
def handleKey (m : Mem) (s : Nat) : Option Mem :=
  (keyLoop (m.drop s) s none).bind fun r => (load m s).bind fun c =>
    (write m s (toupper c)).bind fun m => squeeze m r.1 r.2

/-- `handle_type(s)`: the memory, and the type. -/
def handleType (m : Mem) (s : Nat) : Option (Mem × String) :=
  (load m s).bind fun c =>
    if tolower c = 'b'.toUInt8 then some (m, "int64")
    else if tolower c = 'i'.toUInt8 then
      (nextItem m s).bind fun r => (load r.1 r.2).map fun c =>
        if c = 'u'.toUInt8 then (r.1, "uint32") else (r.1, "int32")
    else if tolower c = 'd'.toUInt8 ∨ tolower c = 't'.toUInt8 then some (m, "time.Time")
    else if tolower c = 'c'.toUInt8 ∨ tolower c = 'v'.toUInt8 then some (m, "string")
    else some (m, "interface\x7b\x7d")

/-- `handle_line(s)`: what it prints. -/
def handleLine (m : Mem) (s : Nat) : Option (List UInt8 × String) :=
  (handleKey m s).bind fun m => (nextItem m s).bind fun r => (handleType r.1 r.2).bind fun t =>
    (toStr (t.1.drop s)).map fun key => (key, t.2)

/-- The loop of `main` over the leading white space, on the memory from `s` on. -/
def skip : Mem → Nat → Option Nat
  | some c :: rest, s => if isspace c then skip rest (s + 1) else some s
  | _, _              => none

/-- `main` on one line. -/
def convLine (cs : List UInt8) : Option (List UInt8 × String) :=
  (skip (cstr cs) 0).bind fun s => handleLine (cstr cs) s

/-- `main` on the lines of the input. -/
def main : List (List UInt8) → Option (List (List UInt8 × String))
  | []          => some []
  | cs :: lines => (convLine cs).bind fun r => (main lines).map (r :: ·)

variable {cs key word gap rest : List UInt8} {c : UInt8} {pre : Mem} {e s : Nat} {d : Option Nat}

/-! ### Passing over a word -/

/-- Without white space behind the name the loop runs behind the end of the line. -/
theorem keyLoop_eq_none (h : ∀ c ∈ cs, isspace c = false) : keyLoop (cstr cs) e d = none := by
  induction cs generalizing e d with
  | nil => rfl
  | cons c cs ih =>
    rw [List.forall_mem_cons] at h
    show keyLoop (some c :: cstr cs) e d = none
    rw [keyLoop, if_neg (by simp [h.1]), ih h.2]

/-- The loop stops at the first white space behind a name without an underscore. -/
theorem keyLoop_word (hw : ∀ c ∈ word, isspace c = false) (hu : underscore ∉ word)
    (hc : isspace c = true) (back : Mem) :
    keyLoop (word.map some ++ some c :: back) e d = some (e + word.length, d) := by
  induction word generalizing e with
  | nil => simp [keyLoop, hc]
  | cons b word ih =>
    rw [List.forall_mem_cons] at hw
    rw [List.mem_cons, not_or] at hu
    rw [List.map_cons, List.cons_append, keyLoop, if_neg (by simp [hw.1]), if_neg (Ne.symm hu.1),
      ih hw.2 hu.2, List.length_cons, Nat.add_assoc, Nat.add_comm 1]

/-- `d` is the last underscore: the loop overwrites it with every underscore up to the white
    space. -/
theorem keyLoop_underscore {front : List UInt8}
    (hw : ∀ c ∈ front ++ underscore :: word, isspace c = false) (hu : underscore ∉ word)
    (hc : isspace c = true) (back : Mem) :
    keyLoop ((front ++ underscore :: word).map some ++ some c :: back) e d
      = some (e + (front ++ underscore :: word).length, some (e + front.length)) := by
  -- an underscore in `front` sets `d` too, but the last one overwrites it
  induction front generalizing e d with
  | nil =>
    rw [List.nil_append, List.forall_mem_cons] at hw
    rw [List.nil_append, List.map_cons, List.cons_append, keyLoop, if_neg (by simp [hw.1]),
      if_pos rfl, keyLoop_word hw.2 hu hc, List.length_cons, Nat.add_assoc, Nat.add_comm 1]
    rfl
  | cons b front ih =>
    rw [List.cons_append, List.forall_mem_cons] at hw
    rw [List.cons_append, List.map_cons, List.cons_append, keyLoop, if_neg (by simp [hw.1]),
      ih hw.2, List.length_cons, List.length_cons, Nat.add_assoc, Nat.add_comm 1, Nat.add_assoc e,
      Nat.add_comm 1]

/-! ### The next item -/

/-- The first part of a word is passed over. -/
theorem nextLoop_word (m : Mem) (hw : ∀ c ∈ word, isspace c = false) (back : Mem) :
    nextLoop m (word.map some ++ back) s 0 = nextLoop m back (s + word.length) 0 := by
  induction word generalizing s with
  | nil => rfl
  | cons c word ih =>
    rw [List.forall_mem_cons] at hw
    rw [List.map_cons, List.cons_append, nextLoop, if_neg (by simp [hw.1]), if_neg (by decide),
      ih hw.2, List.length_cons, Nat.add_assoc, Nat.add_comm 1]

/-- `jump` counts the white space.  It is an `int`, so that the loop has no result for a gap of `2 ^
    31` characters. -/
theorem nextLoop_gap (m : Mem) (hg : ∀ c ∈ gap, isspace c = true) (back : Mem) {jump : Nat}
    (hpos : 0 < jump) (hjump : jump < 2 ^ 31) :
    nextLoop m (gap.map some ++ back) s jump
      = if jump + gap.length < 2 ^ 31 then
          nextLoop m back (s + gap.length) (jump + gap.length : Nat)
        else none := by
  -- `jump` stays positive, so the branch that ends an item is not taken again
  induction gap generalizing s jump with
  | nil =>
    rw [if_pos (by simpa using hjump)]
    rfl
  | cons c gap ih =>
    rw [List.forall_mem_cons] at hg
    rw [List.map_cons, List.cons_append, nextLoop, if_neg (by omega), if_pos (by omega),
      if_pos hg.1, List.length_cons]
    by_cases hint : jump + 1 < 2 ^ 31
    · have hchecked : checked ((jump : Int) + 1) = some ((jump + 1 : Nat) : Int) :=
        checked_of_isInt ⟨by omega, by omega⟩
      rw [hchecked, Option.bind_some, ih hg.2 (by omega) hint, Nat.add_assoc, Nat.add_assoc,
        Nat.add_comm 1]
    · have hchecked : checked ((jump : Int) + 1) = none := by
        rw [checked, if_neg]
        rintro ⟨-, hlt⟩
        omega
      rw [hchecked, Option.bind_none, if_neg (by omega)]

/-- The loop stops at the next word, or at the terminator. -/
theorem nextLoop_rest (m : Mem) (hr : ∀ c ∈ rest.head?, isspace c = false) {jump : Int}
    (hpos : 0 < jump) : nextLoop m (cstr rest) s jump = some (m, s) := by
  have hstop : ∀ c back, isspace c = false → nextLoop m (some c :: back) s jump = some (m, s) := by
    intro c back hc
    rw [nextLoop, if_neg (by simp [hc]), if_pos hpos, if_neg (by simp [hc])]
  cases rest with
  | nil => exact hstop 0 [] isspace_zero
  | cons c rest => exact hstop c (cstr rest) (hr c rfl)

/-- Without white space behind the word `next_item` runs behind the end of the line. -/
theorem nextItem_eq_none (h : ∀ c ∈ cs, isspace c = false) (pre : Mem) :
    nextItem (pre ++ cstr cs) pre.length = none := by
  have hloop := nextLoop_word (s := pre.length) (pre ++ cstr cs) h (cstr [])
  rw [← cstr_of_append, List.append_nil] at hloop
  rw [nextItem, List.drop_left, hloop]
  rfl

/-- **`next_item`** ends the first item with a terminator and goes to the item behind the white
    space.  It counts the white space in `jump`, which has to stay an `int`. -/
theorem nextItem_eq (h : Item isspace cs word gap rest) (pre : Mem) :
    ∃ post, nextItem (pre ++ cstr cs) pre.length
      = if gap.length < 2 ^ 31 then
          some (pre ++ (word.map some ++ some 0 :: post) ++ cstr rest,
            (pre ++ (word.map some ++ some 0 :: post)).length)
        else none := by
  obtain ⟨rfl, hw, hg, hne, hr⟩ := h
  obtain ⟨g, gap, rfl⟩ := List.exists_cons_of_ne_nil hne
  rw [List.forall_mem_cons] at hg
  -- `nextItem` writes the terminator over the first white space and skips the others
  refine ⟨gap.map some, ?_⟩
  have hwrite := write_append (pre ++ word.map some) (some g) (gap.map some ++ cstr rest) 0
  have hgap := nextLoop_gap (s := (pre ++ word.map some).length + 1)
    (pre ++ word.map some ++ some 0 :: (gap.map some ++ cstr rest)) hg.2 (cstr rest)
    Nat.one_pos (by decide)
  rw [nextLoop_rest _ hr (by omega)] at hgap
  -- the buffer, as the two loops see it
  have hmem : pre ++ cstr (word ++ (g :: gap ++ rest))
      = pre ++ word.map some ++ some g :: (gap.map some ++ cstr rest) := by
    rw [cstr_of_append, List.cons_append, ← List.append_assoc]
    show _ ++ some g :: cstr (gap ++ rest) = _
    rw [cstr_of_append]
  rw [hmem, nextItem, List.append_assoc, List.drop_left, nextLoop_word _ hw, ← List.append_assoc,
    nextLoop, if_pos ⟨rfl, hg.1⟩]
  rw [List.length_append, List.length_map] at hwrite hgap
  rw [hwrite, Option.bind_some]
  refine hgap.trans ?_
  rw [List.length_cons, Nat.add_comm 1]
  congr 2
  refine Prod.ext (by simp) ?_
  simp only [List.length_append, List.length_map, List.length_cons]
  omega

/-! ### The key -/

/-- The first character in upper case. -/
def upperHead : List UInt8 → List UInt8
  | []      => []
  | c :: cs => toupper c :: cs

/-- The upper-case letter at the head of a name is no white space. -/
theorem isspace_upperHead (h : ∀ c ∈ cs, isspace c = false) :
    ∀ c ∈ upperHead cs, isspace c = false := by
  cases cs with
  | nil => exact h
  | cons b cs =>
    rw [List.forall_mem_cons] at h
    rw [upperHead, List.forall_mem_cons, isspace_toupper]
    exact h

/-- It is one character, too. -/
theorem length_upperHead (cs : List UInt8) : (upperHead cs).length = cs.length := by
  cases cs with
  | nil => rfl
  | cons c cs => rfl

/-- An underscore and white space stay as they are. -/
theorem upperHead_append (cs : List UInt8) {b : UInt8} {more : List UInt8} (hb : toupper b = b) :
    upperHead (cs ++ b :: more) = upperHead cs ++ b :: more := by
  cases cs with
  | nil => exact congrArg (· :: more) hb
  | cons c cs => rfl

/-- Writing a character in upper case. -/
theorem write_toupper (pre : Mem) (c : UInt8) (cs : List UInt8) :
    write (pre ++ cstr (c :: cs)) pre.length (toupper c)
      = some (pre ++ cstr (upperHead (c :: cs))) :=
  write_append pre (some c) (cstr cs) (toupper c)

/-- The last underscore of the key is taken out, unless a terminator stands behind it. -/
def Squeezed (key : List UInt8) : Prop :=
  ∃ back, strrchr underscore key = some (underscore :: back) ∧ back.head? ≠ some 0

/-- The bytes behind the underscore are moved by one, and a space fills the gap. -/
theorem memcpy_squeeze (pre : Mem) (u g : UInt8) (back more : List UInt8) :
    (memcpy (pre ++ cstr (u :: (back ++ g :: more))) pre.length (cstr (back ++ g :: more))
        back.length).bind (fun m => write m (pre.length + back.length) space)
      = some (pre ++ cstr (back ++ space :: g :: more)) := by
  -- all but the last byte `x` are overwritten by the copy, and `x` by the space
  obtain ⟨mid, x, hmid⟩ : ∃ mid x, some u :: back.map some = mid ++ [x] :=
    ⟨_, _, (List.dropLast_append_getLast (List.cons_ne_nil _ _)).symm⟩
  have hlen : mid.length = (back.map some).length := by
    have := congrArg List.length hmid
    rw [List.length_cons, List.length_append] at this
    exact (Nat.succ.inj this).symm
  have hcopy :=
    memcpy_append pre mid (x :: cstr (g :: more)) (back.map some) (cstr (g :: more)) hlen
  have hwrite := write_append (pre ++ back.map some) x (cstr (g :: more)) space
  have hsrc : cstr (u :: (back ++ g :: more)) = mid ++ x :: cstr (g :: more) := by
    show some u :: cstr (back ++ g :: more) = _
    rw [cstr_of_append, ← List.cons_append, hmid, List.append_assoc]
    rfl
  rw [List.length_append, List.length_map, List.append_assoc] at hwrite
  rw [List.length_map, ← cstr_of_append] at hcopy
  rw [hsrc, hcopy, Option.bind_some, hwrite, cstr_of_append, List.append_assoc]
  rfl

/-- The memory from the second byte of a string on. -/
theorem drop_behind (pre : Mem) (u : UInt8) (cs : List UInt8) :
    (pre ++ cstr (u :: cs)).drop (pre.length + 1) = cstr cs := by
  rw [← List.drop_drop, List.drop_left]
  rfl

/-- The character behind the one at a place. -/
theorem load_behind (pre : Mem) (u c : UInt8) (cs : List UInt8) :
    load (pre ++ cstr (u :: c :: cs)) (pre.length + 1) = some c := by
  rw [load, drop_behind]
  rfl

/-- A terminator behind the underscore. -/
theorem squeeze_of_zero (pre : Mem) (u : UInt8) (back : List UInt8) (e : Nat) :
    squeeze (pre ++ cstr (u :: 0 :: back)) e (some pre.length)
      = some (pre ++ cstr (u :: 0 :: back)) := by
  rw [squeeze, load_behind, Option.bind_some, if_pos rfl]

/-- The name is moved one character to the left over its last underscore, and a space is put behind
    it. -/
theorem squeeze_of_ne_zero (pre : Mem) (u : UInt8) {g : UInt8} {back : List UInt8}
    (hback : back.head? ≠ some 0) (hg : isspace g = true) (more : List UInt8) :
    squeeze (pre ++ cstr (u :: (back ++ g :: more))) (pre.length + (back.length + 1))
        (some pre.length)
      = some (pre ++ cstr (upperHead back ++ space :: g :: more)) := by
  -- `d[1]` is a character of the key or, behind an underscore at its end, white space
  obtain ⟨b, tail, hcons, hb⟩ : ∃ b tail, back ++ g :: more = b :: tail ∧ b ≠ 0 := by
    cases back with
    | nil =>
      refine ⟨g, more, rfl, ?_⟩
      rintro rfl
      rw [isspace_zero] at hg
      cases hg
    | cons b back => exact ⟨b, back ++ g :: more, rfl, fun hb => hback (congrArg some hb)⟩
  have hwrite := write_toupper (pre ++ [some u]) b tail
  rw [← hcons, upperHead_append back (toupper_of_isspace hg), List.length_append,
    List.append_assoc, List.append_assoc] at hwrite
  have hwrite' : write (pre ++ cstr (u :: (back ++ g :: more))) (pre.length + 1) (toupper b)
      = some (pre ++ cstr (u :: (upperHead back ++ g :: more))) := hwrite
  have hcopy := memcpy_squeeze pre u g (upperHead back) more
  rw [length_upperHead] at hcopy
  have hcount : pre.length + (back.length + 1) - pre.length - 1 = back.length := by omega
  have hload := load_behind pre u b tail
  rw [← hcons] at hload
  rw [squeeze, hload, Option.bind_some, if_neg hb, hwrite', Option.bind_some, drop_behind, hcount]
  exact hcopy

/-- `handle_key` runs behind the end of the line if its loop does. -/
theorem handleKey_eq_none (h : ∀ c ∈ cs, isspace c = false) (pre : Mem) :
    handleKey (pre ++ cstr cs) pre.length = none := by
  rw [handleKey, List.drop_left, keyLoop_eq_none h, Option.bind_none]

/-- What `handle_key` does with what its loop has found. -/
theorem handleKey_of_keyLoop (hkey : key ≠ []) {more : List UInt8}
    (hloop : keyLoop (cstr (key ++ more)) pre.length none = some (e, d)) :
    handleKey (pre ++ cstr (key ++ more)) pre.length
      = squeeze (pre ++ cstr (upperHead key ++ more)) e d := by
  obtain ⟨c, key, rfl⟩ := List.exists_cons_of_ne_nil hkey
  have hload : load (pre ++ cstr (c :: key ++ more)) pre.length = some c := load_append pre c _
  have hwrite : write (pre ++ cstr (c :: key ++ more)) pre.length (toupper c)
      = some (pre ++ cstr (upperHead (c :: key) ++ more)) := write_toupper pre c (key ++ more)
  rw [handleKey, List.drop_left, hloop, Option.bind_some, hload, Option.bind_some, hwrite,
    Option.bind_some]

/-- A name is squeezed at its last underscore, unless a NUL follows it. -/
theorem squeezed_append {front back : List UInt8} (hback : underscore ∉ back) :
    Squeezed (front ++ underscore :: back) ↔ back.head? ≠ some 0 := by
  rw [Squeezed, strrchr_append front hback]
  constructor
  · rintro ⟨back', heq, hhead⟩
    rw [Option.some_inj, List.cons.injEq] at heq
    rwa [heq.2]
  · exact fun hhead => ⟨back, rfl, hhead⟩

/-- A key with an underscore, the last one in front of `back`: it is taken out, and the part behind
    it gets a capital, unless a NUL stands right behind it. -/
theorem handleKey_underscore {front back : List UInt8} {g : UInt8}
    (hw : ∀ c ∈ front ++ underscore :: back, isspace c = false) (hback : underscore ∉ back)
    (hg : isspace g = true) (more : List UInt8) (pre : Mem) :
    handleKey (pre ++ cstr (front ++ underscore :: back ++ g :: more)) pre.length
      = if back.head? = some 0 then
          some (pre ++ cstr (upperHead (front ++ underscore :: back) ++ g :: more))
        else some (pre ++ cstr (upperHead front ++ upperHead back ++ space :: g :: more)) := by
  have hloop := keyLoop_underscore (e := pre.length) (d := none) hw hback hg (cstr more)
  have hmem : cstr (front ++ underscore :: back ++ g :: more)
      = (front ++ underscore :: back).map some ++ some g :: cstr more := cstr_of_append _ _
  -- the block as `squeeze` sees it, with `d` at the end of the first part
  have hblock : pre ++ cstr (upperHead (front ++ underscore :: back) ++ g :: more)
      = pre ++ (upperHead front).map some ++ cstr (underscore :: (back ++ g :: more)) := by
    rw [upperHead_append front (by decide), List.append_assoc, cstr_of_append, ← List.append_assoc]
    rfl
  have hpre : pre.length + front.length = (pre ++ (upperHead front).map some).length := by
    rw [List.length_append, List.length_map, length_upperHead]
  rw [← hmem] at hloop
  rw [handleKey_of_keyLoop (by simp) hloop, hblock, List.length_append, ← Nat.add_assoc, hpre,
    List.length_cons]
  split
  · next hzero =>
    obtain ⟨back, rfl⟩ := List.head?_eq_some_iff.mp hzero
    exact squeeze_of_zero _ underscore _ _
  · next hzero =>
    rw [squeeze_of_ne_zero _ underscore hzero hg, List.append_assoc pre, ← cstr_of_append,
      List.append_assoc]

/-- **`handle_key`** leaves a key without white space in it, and white space behind it: the one that
    was there, and a space more where an underscore was taken out. -/
theorem handleKey_eq (h : Item isspace cs key gap rest) (hkey : key ≠ []) (pre : Mem) :
    ∃ cs' key' gap', handleKey (pre ++ cstr cs) pre.length = some (pre ++ cstr cs') ∧
      Item isspace cs' key' gap' rest ∧
      (¬ Squeezed key ∧ gap'.length = gap.length ∨
        Squeezed key ∧ gap'.length = gap.length + 1) := by
  obtain ⟨rfl, hw, hg, hne, hr⟩ := h
  obtain ⟨g, gap, rfl⟩ := List.exists_cons_of_ne_nil hne
  have hg' := hg g List.mem_cons_self
  have hitem : Item isspace (upperHead key ++ (g :: gap ++ rest)) (upperHead key) (g :: gap) rest :=
    ⟨rfl, isspace_upperHead hw, hg, hne, hr⟩
  by_cases hu : underscore ∈ key
  · obtain ⟨front, back, rfl, hback⟩ := exists_append_cons hu
    have hhandle := handleKey_underscore hw hback hg' (gap ++ rest) pre
    rw [squeezed_append hback]
    by_cases hzero : back.head? = some 0
    · -- the underscore stays
      rw [if_pos hzero] at hhandle
      exact ⟨_, _, _, hhandle, hitem, .inl ⟨not_not.mpr hzero, rfl⟩⟩
    · rw [if_neg hzero] at hhandle
      refine ⟨_, _, space :: g :: gap, hhandle, ⟨rfl, ?_, ?_, List.cons_ne_nil _ _, hr⟩,
        .inr ⟨hzero, rfl⟩⟩
      · rw [List.forall_mem_append] at hw ⊢
        exact ⟨isspace_upperHead hw.1, isspace_upperHead (List.forall_mem_cons.mp hw.2).2⟩
      · rw [List.forall_mem_cons]
        exact ⟨by decide, hg⟩
  · have hloop := keyLoop_word (e := pre.length) (d := none) hw hu hg' (cstr (gap ++ rest))
    have hmem : cstr (key ++ (g :: gap ++ rest)) = key.map some ++ some g :: cstr (gap ++ rest) :=
      cstr_of_append key (g :: (gap ++ rest))
    have hnot : ¬ Squeezed key := by
      rintro ⟨back, hback, -⟩
      rw [strrchr_eq_none hu] at hback
      cases hback
    rw [← hmem] at hloop
    exact ⟨_, _, _, handleKey_of_keyLoop hkey hloop, hitem, .inl ⟨hnot, rfl⟩⟩

/-! ### The type -/

/-- The type begins with `i`. -/
def StartsInt (rest : List UInt8) : Prop := ∃ c ∈ rest.head?, tolower c = 'i'.toUInt8

/-- A type that begins with `i` has white space behind it, as much as `jump` can count. -/
def TypeInLine (rest : List UInt8) : Prop :=
  StartsInt rest → ∃ word gap rest', Item isspace rest word gap rest' ∧ gap.length < 2 ^ 31

/-- The character at a place; at the end of the line it is the terminator. -/
theorem load_cstr (pre : Mem) (rest : List UInt8) :
    load (pre ++ cstr rest) pre.length = some (rest.headD 0) := by
  cases rest with
  | nil => exact load_append pre 0 []
  | cons c rest => exact load_append pre c (cstr rest)

/-- Only the first letter of the type is looked at. -/
theorem startsInt_iff : StartsInt rest ↔ tolower (rest.headD 0) = 'i'.toUInt8 := by
  cases rest with
  | nil => exact iff_of_false (fun ⟨c, hc, _⟩ => by cases hc) (by decide)
  | cons c rest => simp [StartsInt]

/-- Other types are taken as they are. -/
theorem handleType_of_not (h : ¬ StartsInt rest) (pre : Mem) :
    ∃ t, handleType (pre ++ cstr rest) pre.length = some (pre ++ cstr rest, t) := by
  rw [startsInt_iff] at h
  rw [handleType, load_cstr, Option.bind_some, if_neg h]
  split_ifs <;> exact ⟨_, rfl⟩

/-- For an integer the next item decides about its sign. -/
theorem handleType_of_startsInt (h : StartsInt rest) (pre : Mem) :
    handleType (pre ++ cstr rest) pre.length
      = (nextItem (pre ++ cstr rest) pre.length).bind fun r => (load r.1 r.2).map fun c =>
          if c = 'u'.toUInt8 then (r.1, "uint32") else (r.1, "int32") := by
  rw [startsInt_iff] at h
  rw [handleType, load_cstr, Option.bind_some, h, if_neg (by decide), if_pos rfl]

/-- **`handle_type`** changes nothing in front of the type, and returns the text for it. -/
theorem handleType_eq (h : TypeInLine rest) (pre : Mem) :
    ∃ post t, handleType (pre ++ cstr rest) pre.length = some (pre ++ post, t) := by
  by_cases hint : StartsInt rest
  · obtain ⟨word, gap, rest', hitem, hgap⟩ := h hint
    obtain ⟨post, hnext⟩ := nextItem_eq hitem pre
    rw [if_pos hgap] at hnext
    rw [handleType_of_startsInt hint, hnext, Option.bind_some, load_cstr, Option.map_some,
      List.append_assoc]
    split_ifs
    · exact ⟨_, _, rfl⟩
    · exact ⟨_, _, rfl⟩
  · obtain ⟨t, ht⟩ := handleType_of_not hint pre
    exact ⟨_, t, ht⟩

/-- A type that is the last word of a line leads `next_item` behind the end. -/
theorem handleType_eq_none (h : ¬ TypeInLine rest) (pre : Mem) :
    handleType (pre ++ cstr rest) pre.length = none := by
  rw [TypeInLine, Classical.not_imp] at h
  obtain ⟨hint, hnot⟩ := h
  have hnext : nextItem (pre ++ cstr rest) pre.length = none := by
    rcases item_or_not_sep isspace rest with ⟨word, gap, rest', hitem⟩ | hword
    · obtain ⟨post, hnext⟩ := nextItem_eq hitem pre
      rw [hnext, if_neg fun hgap => hnot ⟨word, gap, rest', hitem, hgap⟩]
    · exact nextItem_eq_none hword pre
  rw [handleType_of_startsInt hint, hnext, Option.bind_none]

/-! ### A line -/

/-- **`handle_line`** on a key and what is behind it: it has a result exactly if the white space can
    be counted and the type is in the line. -/
theorem handleLine_iff (h : Item isspace cs key gap rest) (hkey : key ≠ []) (pre : Mem) :
    (∃ r, handleLine (pre ++ cstr cs) pre.length = some r) ↔
      gap.length < 2 ^ 31 ∧ (Squeezed key → gap.length + 1 < 2 ^ 31) ∧ TypeInLine rest := by
  -- each scanner runs on the memory that the one before has left
  obtain ⟨cs', key', gap', hhandle, hitem, hsqueezed⟩ := handleKey_eq h hkey pre
  obtain ⟨post, hnext⟩ := nextItem_eq hitem pre
  have hgap : gap'.length < 2 ^ 31 ↔
      gap.length < 2 ^ 31 ∧ (Squeezed key → gap.length + 1 < 2 ^ 31) := by
    rcases hsqueezed with ⟨hnot, hlen⟩ | ⟨hyes, hlen⟩
    · simp [hnot, hlen]
    · simp only [hyes, hlen, forall_const]
      omega
  rw [← and_assoc, ← hgap, handleLine, hhandle, Option.bind_some, hnext]
  by_cases hlt : gap'.length < 2 ^ 31
  · rw [if_pos hlt, Option.bind_some]
    by_cases htype : TypeInLine rest
    · obtain ⟨post', t, ht⟩ := handleType_eq htype (pre ++ (key'.map some ++ some 0 :: post))
      have htext := toStr_takeWhile key' (post ++ post')
      have hdrop : (pre ++ (key'.map some ++ some 0 :: post) ++ post').drop pre.length
          = key'.map some ++ some 0 :: (post ++ post') := by
        rw [List.append_assoc, List.drop_left, List.append_assoc]
        rfl
      simp only [ht, Option.bind_some, hdrop, htext, Option.map_some]
      exact iff_of_true ⟨_, rfl⟩ ⟨hlt, htype⟩
    · rw [handleType_eq_none htype]
      exact iff_of_false (fun ⟨r, hr⟩ => by cases hr) fun h => htype h.2
  · rw [if_neg hlt]
    exact iff_of_false (fun ⟨r, hr⟩ => by cases hr) fun h => hlt h.1

/-- The white space at the beginning is skipped; a line of white space ends at its terminator. -/
theorem skip_eq (cs : List UInt8) (s : Nat) :
    skip (cstr cs) s = some (s + (cs.takeWhile isspace).length) := by
  induction cs generalizing s with
  | nil => rfl
  | cons c cs ih =>
    show skip (some c :: cstr cs) s = _
    rw [skip, ih, List.takeWhile_cons]
    split_ifs
    · rw [List.length_cons, Nat.add_assoc, Nat.add_comm 1]
    · rfl

/-- The line without its leading white space. -/
theorem convLine_eq (cs : List UInt8) :
    convLine cs = handleLine ((cs.takeWhile isspace).map some ++ cstr (cs.dropWhile isspace))
      ((cs.takeWhile isspace).map some).length := by
  rw [convLine, skip_eq, Option.bind_some, ← cstr_of_append, List.takeWhile_append_dropWhile,
    List.length_map, Nat.zero_add]

/-- **When a line is converted.**  It needs a name with white space behind it, which `jump` can
    count, and a type that the scanners stay in. -/
theorem convLine_iff (cs : List UInt8) :
    (∃ r, convLine cs = some r) ↔
      ∃ key gap rest, Item isspace (cs.dropWhile isspace) key gap rest ∧
        gap.length < 2 ^ 31 ∧ (Squeezed key → gap.length + 1 < 2 ^ 31) ∧ TypeInLine rest := by
  have hhead := head_dropWhile isspace cs
  rw [convLine_eq]
  generalize cs.dropWhile isspace = r at hhead ⊢
  constructor
  · intro hr
    rcases item_or_not_sep isspace r with ⟨key, gap, rest, hitem⟩ | hword
    · exact ⟨key, gap, rest, hitem, (handleLine_iff hitem (hitem.word_ne_nil hhead) _).mp hr⟩
    · -- nothing stops the loop of `handle_key`
      obtain ⟨t, ht⟩ := hr
      rw [handleLine, handleKey_eq_none hword] at ht
      cases ht
  · rintro ⟨key, gap, rest, hitem, hcond⟩
    exact (handleLine_iff hitem (hitem.word_ne_nil hhead) _).mpr hcond

/-! ### Lines with a newline -/

/-- A text that ends with a character has it in every end of it. -/
theorem mem_of_append_eq {x y : List UInt8} (h : x ++ y = cs ++ [c]) (hy : y ≠ []) : c ∈ y := by
  have hlast := congrArg List.getLast? h
  rw [List.getLast?_append_of_ne_nil _ hy, List.getLast?_concat] at hlast
  exact List.mem_of_getLast? hlast

/-- With a newline at its end, a line has to have a character that is not white space. -/
theorem convLine_newline_iff (hlen : cs.length + 1 < 2 ^ 31) :
    (∃ r, convLine (cs ++ [0x0a]) = some r) ↔ ∃ c ∈ cs, isspace c = false := by
  have hhead := head_dropWhile isspace (cs ++ [0x0a])
  have hsplit : (cs ++ [0x0a]).takeWhile isspace ++ (cs ++ [0x0a]).dropWhile isspace
      = cs ++ [0x0a] := List.takeWhile_append_dropWhile
  have hnewline : isspace 0x0a = true := by decide
  rw [convLine_iff]
  constructor
  · rintro ⟨key, gap, rest, hitem, -⟩
    obtain ⟨c, hc⟩ := List.exists_mem_of_ne_nil key (hitem.word_ne_nil hhead)
    have hspace := hitem.not_sep c hc
    have hmem : c ∈ cs ++ [0x0a] := by
      rw [← hsplit, hitem.eq]
      exact List.mem_append_right _ (List.mem_append_left _ hc)
    rcases List.mem_append.mp hmem with hmem | hmem
    · exact ⟨c, hmem, hspace⟩
    · rw [List.mem_singleton.mp hmem, hnewline] at hspace
      cases hspace
  · rintro ⟨c, hc, hspace⟩
    have hne : (cs ++ [0x0a]).dropWhile isspace ≠ [] := by
      intro hnil
      have hall := List.dropWhile_eq_nil_iff.mp hnil c (List.mem_append_left _ hc)
      rw [hspace] at hall
      cases hall
    obtain ⟨key, gap, rest, hitem⟩ := exists_item ⟨_, mem_of_append_eq hsplit hne, hnewline⟩
    have hkey := List.length_pos_iff.mpr (hitem.word_ne_nil hhead)
    rw [hitem.eq] at hsplit
    have hcount := congrArg List.length hsplit
    simp only [List.length_append, List.length_singleton] at hcount
    refine ⟨key, gap, rest, hitem, by omega, fun _ => by omega, fun ⟨b, hb, _⟩ => ?_⟩
    -- the newline is behind the type, too
    have hrest : rest ≠ [] := by
      rintro rfl
      cases hb
    rw [← List.append_assoc, ← List.append_assoc] at hsplit
    obtain ⟨word, gap', rest', hitem'⟩ := exists_item ⟨_, mem_of_append_eq hsplit hrest, hnewline⟩
    have hcount' := congrArg List.length hitem'.eq
    simp only [List.length_append] at hcount'
    exact ⟨word, gap', rest', hitem', by omega⟩

/-- **Scanning a line.**  The loops of the scanners end in the line exactly if there is white space
    behind the key and, where the type begins with `i`, behind the type.  `jump` has to count it,
    with the space that may come from the key.  For a line of a usual length with a newline at its
    end, this means that it is not blank. -/
theorem stays_in_line (cs : List UInt8) :
    ((∃ r, convLine cs = some r) ↔
      ∃ key gap rest, Item isspace (cs.dropWhile isspace) key gap rest ∧
        gap.length < 2 ^ 31 ∧ (Squeezed key → gap.length + 1 < 2 ^ 31) ∧ TypeInLine rest) ∧
    ∀ line, cs = line ++ [0x0a] → cs.length < 2 ^ 31 →
      ((∃ r, convLine cs = some r) ↔ ∃ c ∈ line, isspace c = false) := by
  refine ⟨convLine_iff cs, ?_⟩
  rintro line rfl hlen
  rw [List.length_append, List.length_singleton] at hlen
  exact convLine_newline_iff hlen

/-- A blank line, a line with one word, and a line with the type `int` at its end.  The last two
    have no newline. -/
theorem stays_in_line_failed :
    convLine [0x0a] = none ∧ convLine "id".toUTF8.toList = none ∧
      convLine "id int".toUTF8.toList = none := by
  decide +kernel

/-! ### The input -/

/-- `main` stays in all lines if it stays in each. -/
theorem main_iff (lines : List (List UInt8)) :
    (∃ out, main lines = some out) ↔ ∀ cs ∈ lines, ∃ r, convLine cs = some r := by
  induction lines with
  | nil => simp [main]
  | cons cs lines ih =>
    rw [List.forall_mem_cons, ← ih, main]
    cases convLine cs with
    | none => simp
    | some r =>
      cases main lines with
      | none => simp
      | some out => simp

/-- The line `user_id int unsigned`. -/
example : main ["user_id int unsigned\n".toUTF8.toList]
    = some [("UserId".toUTF8.toList, "uint32")] := by
  decide +kernel

end CPlayground.DdlConv
