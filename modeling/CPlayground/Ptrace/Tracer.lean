import CPlayground.Lib.CString
import CPlayground.Lib.CType
import CPlayground.Lib.Loop
import CPlayground.Lib.Trace
import CPlayground.Ptrace.PtraceSyscall
import Mathlib.Data.List.DropRight
import Mathlib.Data.List.Induction

namespace CPlayground.Ptrace

open AddressSpace Bytes CType Memory Loop Trace

/-!
# The tracer of `ptrace-syscall.c`

The child is stopped where it enters and where it leaves a system call, and the tracer is told the
number of the call.  At the first of two stops for `write` it fetches the text, reverses it and
stores it back, so that the kernel writes the reversed text; the flag `insyscall` keeps the two
stops apart.

The child may do anything with its memory between its calls.  There are no other stops: signals for
the child are left out, every `ptrace` call of the tracer succeeds, and a `write` is for fewer than
`2 ^ 31` bytes.

* `reverse_eq`, `reverse_blank` — `reverse` turns the text around up to the white space at its end.
  For a blank text it reads in front of its block.
* `edit_eq` — the memory after the first stop.
* `writes_mirrored` — in every run the kernel writes what the child has asked for, turned around.
  The handler of the tracer has a result exactly if the text is not blank, and it changes no byte
  behind the last word of the text.
* `written_twice` — the text stays as it is, so the second `write` of it restores it.
-/

/-! ### `reverse` -/

/-- `for (; isspace(str[j]); --j);` from `j = n - 1` on.  There is no `str[-1]`. -/
def skipSpaces (str : Mem) : Nat → Option Nat
  | 0     => none
  | j + 1 => (load str j).bind fun c => if isspace c then skipSpaces str j else some j

/-- The variables of the second loop. -/
structure Ends where
  i : Nat
  j : Nat
  str : Mem

/-- The body of the loop, which exchanges two characters. -/
def swapRound (s : Ends) : Option Ends :=
  (load s.str s.i).bind fun t =>
  (load s.str s.j).bind fun c =>
  (write s.str s.i c).bind fun str =>
  (write str s.j t).map fun str => ⟨s.i + 1, s.j - 1, str⟩

/-- The loop, for at most `n` rounds. -/
def swapEnds (n : Nat) (s : Ends) : Option Mem :=
  (run (fun s => s.i < s.j) swapRound n s).map Ends.str

/-- `reverse(str, jump_nl)`.  For the empty string, `j = -1` and `j = 0` do the same. -/
def reverse (str : Mem) (jump_nl : Bool) : Option Mem :=
  (strlen str).bind fun n =>
  (if jump_nl then skipSpaces str n else some (n - 1)).bind fun j =>
  swapEnds n ⟨0, j, str⟩

/-- The text in a buffer, without the white space at its end. -/
def core (bytes : List UInt8) : List UInt8 := (bytes.takeWhile (· ≠ 0)).rdropWhile isspace

/-- The buffer with this text turned around. -/
def mirrored (bytes : List UInt8) : List UInt8 :=
  (core bytes).reverse ++ bytes.drop (core bytes).length

variable {mid text spaces bytes str data : List UInt8} {pre post : Mem} {c : UInt8} {n len : Nat}
  {mem mem' : Space} {addr : UInt64}

/-- Two characters are exchanged, and the loop goes on with what is between them. -/
theorem swapRound_eq (pre between post : Mem) (a b : UInt8) :
    swapRound ⟨pre.length, pre.length + (between.length + 1),
        pre ++ some a :: (between ++ some b :: post)⟩
      = some ⟨pre.length + 1, pre.length + between.length,
        pre ++ some b :: (between ++ some a :: post)⟩ := by
  -- the second character, behind whatever is the first one
  have hsplit : ∀ x y : Option UInt8, pre ++ x :: (between ++ y :: post)
      = (pre ++ x :: between) ++ y :: post := by simp
  have hj : ∀ x : Option UInt8,
      pre.length + (between.length + 1) = (pre ++ x :: between).length := by simp
  have hfirst := load_append pre a (between ++ some b :: post)
  have hlast : load (pre ++ some a :: (between ++ some b :: post))
      (pre.length + (between.length + 1)) = some b := by
    rw [hsplit, hj (some a), load_append]
  have hstore : write (pre ++ some b :: (between ++ some b :: post))
      (pre.length + (between.length + 1)) a
      = some (pre ++ some b :: (between ++ some a :: post)) := by
    rw [hsplit, hj (some b), write_append, hsplit]
  simp only [swapRound, hfirst, hlast, write_append, hstore, Option.bind_some, Option.map_some,
    Option.some.injEq, Ends.mk.injEq, true_and, and_true]
  omega

/-- **The second loop**, by induction on both ends of what is between `i` and `j`: each round
    exchanges its first and its last byte. -/
theorem swapEnds_eq (pre : Mem) (mid : List UInt8) (post : Mem) (h : mid.length ≤ n) :
    swapEnds n ⟨pre.length, pre.length + mid.length - 1, pre ++ (mid.map some ++ post)⟩
      = some (pre ++ (mid.reverse.map some ++ post)) := by
  induction mid using List.bidirectionalRec generalizing pre post n with
  | nil => rw [swapEnds, run_of_not (by simp)]; rfl
  | singleton a => rw [swapEnds, run_of_not (by simp)]; rfl
  | cons_append a l b ih =>
    rw [List.length_cons, List.length_append, List.length_singleton] at h
    obtain ⟨n, rfl⟩ : ∃ m, n = m + 1 := ⟨n - 1, by omega⟩
    have hround := swapRound_eq pre (l.map some) post a b
    have hnext := ih (pre ++ [some b]) (some a :: post) (n := n) (by omega)
    have hj : pre.length + 1 + l.length - 1 = pre.length + l.length := by omega
    simp only [List.length_append, List.length_singleton, hj, List.append_assoc,
      List.singleton_append] at hnext
    have hstart : pre ++ ((a :: (l ++ [b])).map some ++ post)
        = pre ++ some a :: (l.map some ++ some b :: post) := by simp
    have hend : pre ++ ((a :: (l ++ [b])).reverse.map some ++ post)
        = pre ++ some b :: (l.reverse.map some ++ some a :: post) := by simp
    have hlen : pre.length + (a :: (l ++ [b])).length - 1
        = pre.length + ((l.map some).length + 1) := by simp
    rw [hstart, hend, hlen, swapEnds, run_succ (by simp) hround, List.length_map, ← swapEnds, hnext]

/-- **The first loop** stops at the last character that is no white space, and it does not leave the
    block if there is one. -/
theorem skipSpaces_eq (hc : isspace c = false) (hspaces : ∀ x ∈ spaces, isspace x = true) :
    skipSpaces ((text ++ c :: spaces).map some ++ post) (text.length + 1 + spaces.length)
      = some text.length := by
  induction spaces using List.reverseRecOn generalizing post with
  | nil =>
    have hload := load_append (text.map some) c post
    rw [List.length_map] at hload
    rw [List.map_append, List.append_assoc]
    simp [skipSpaces, hload, hc]
  | append_singleton spaces x ih =>
    have hload := load_append ((text ++ c :: spaces).map some) x post
    have hlen : ((text ++ c :: spaces).map some).length = text.length + 1 + spaces.length := by
      rw [List.length_map, List.length_append, List.length_cons]
      omega
    have hsplit : (text ++ c :: (spaces ++ [x])).map some ++ post
        = (text ++ c :: spaces).map some ++ some x :: post := by simp
    rw [hlen] at hload
    rw [hsplit, List.length_append, List.length_singleton, ← Nat.add_assoc, skipSpaces, hload,
      Option.bind_some, if_pos (hspaces x (by simp))]
    exact ih fun y hy => hspaces y (by simp [hy])

/-- White space only: the loop goes on to `str[-1]`. -/
theorem skipSpaces_eq_none (hspaces : ∀ x ∈ spaces, isspace x = true) :
    skipSpaces (spaces.map some ++ post) spaces.length = none := by
  induction spaces using List.reverseRecOn generalizing post with
  | nil => rfl
  | append_singleton spaces x ih =>
    have hload := load_append (spaces.map some) x post
    rw [List.length_map] at hload
    rw [List.map_append, List.append_assoc, List.length_append, List.length_singleton, skipSpaces,
      List.map_singleton, List.singleton_append, hload, Option.bind_some,
      if_pos (hspaces x (by simp))]
    exact ih fun y hy => hspaces y (by simp [hy])

/-- The text up to the terminator, and the white space at its end. -/
theorem exists_spaces (bytes : List UInt8) :
    ∃ spaces, bytes.takeWhile (· ≠ 0) = core bytes ++ spaces ∧ ∀ x ∈ spaces, isspace x = true := by
  refine ⟨(bytes.takeWhile (· ≠ 0)).rtakeWhile isspace, ?_, fun x => List.mem_rtakeWhile_imp⟩
  rw [core, List.rdropWhile, List.rtakeWhile, ← List.reverse_append,
    List.takeWhile_append_dropWhile, List.reverse_reverse]

/-- The last character of the text is no white space. -/
theorem exists_last (h : core bytes ≠ []) :
    ∃ text c, core bytes = text ++ [c] ∧ isspace c = false := by
  refine ⟨(core bytes).dropLast, (core bytes).getLast h, (List.dropLast_append_getLast h).symm, ?_⟩
  exact Bool.eq_false_iff.mpr (List.rdropWhile_last_not isspace _ h)

/-- The buffer behind the text. -/
theorem exists_rest (h : bytes.takeWhile (· ≠ 0) = core bytes ++ spaces) :
    ∃ rest, bytes = core bytes ++ (spaces ++ rest) ∧ rest.takeWhile (· ≠ 0) = [] := by
  refine ⟨bytes.dropWhile (· ≠ 0), ?_, ?_⟩
  · rw [← List.append_assoc, ← h, List.takeWhile_append_dropWhile]
  · cases hdrop : bytes.dropWhile (· ≠ 0) with
    | nil => rfl
    | cons c rest =>
      have hc := List.head_dropWhile_not (fun x : UInt8 => decide (x ≠ 0)) (l := bytes)
        (hdrop ▸ List.cons_ne_nil c rest)
      simp only [hdrop, List.head_cons] at hc
      rw [List.takeWhile_cons, hc]
      rfl

/-- **`reverse`** turns the text around up to the white space at its end, which stays where it
    is. -/
theorem reverse_eq (h : core bytes ≠ []) :
    reverse (bytes.map some ++ [some 0]) true = some ((mirrored bytes).map some ++ [some 0]) := by
  obtain ⟨spaces, htext, hspaces⟩ := exists_spaces bytes
  obtain ⟨rest, hbytes, -⟩ := exists_rest htext
  obtain ⟨text, c, hcore, hc⟩ := exists_last h
  have hlen : (bytes.takeWhile (· ≠ 0)).length = text.length + 1 + spaces.length := by
    rw [htext, hcore, List.length_append, List.length_append, List.length_singleton]
  -- the block as the first loop sees it, and as the second one does
  have hmem : bytes.map some ++ [some 0]
      = (text ++ c :: spaces).map some ++ (rest.map some ++ [some 0]) := by
    rw [hbytes, hcore]
    simp
  have hmem' : bytes.map some ++ [some 0]
      = [] ++ ((text ++ [c]).map some ++ (spaces.map some ++ (rest.map some ++ [some 0]))) := by
    rw [hbytes, hcore]
    simp
  have hskip : skipSpaces (bytes.map some ++ [some 0]) (text.length + 1 + spaces.length)
      = some text.length := by
    rw [hmem, skipSpaces_eq hc hspaces]
  have hswap := swapEnds_eq [] (text ++ [c]) (spaces.map some ++ (rest.map some ++ [some 0]))
    (n := text.length + 1 + spaces.length) (by simp)
  have hmirrored : mirrored bytes = (text ++ [c]).reverse ++ (spaces ++ rest) := by
    rw [mirrored, hcore, hbytes, hcore, List.drop_left]
  rw [← hmem'] at hswap
  simp only [List.length_nil, List.length_append, List.length_singleton, Nat.zero_add,
    Nat.add_sub_cancel] at hswap
  simp only [reverse, strlen, toStr_takeWhile, Option.map_some, Option.bind_some, if_true, hlen,
    hskip, hswap, hmirrored]
  simp

/-- A blank text. -/
theorem reverse_blank (h : core bytes = []) : reverse (bytes.map some ++ [some 0]) true = none := by
  obtain ⟨spaces, htext, hspaces⟩ := exists_spaces bytes
  obtain ⟨rest, hbytes, -⟩ := exists_rest htext
  rw [h, List.nil_append] at htext hbytes
  have hskip : skipSpaces (bytes.map some ++ [some 0]) spaces.length = none := by
    rw [hbytes, List.map_append, List.append_assoc]
    exact skipSpaces_eq_none hspaces
  simp only [reverse, strlen, toStr_takeWhile, Option.map_some, Option.bind_some, if_true, htext,
    hskip, Option.bind_none]

/-! ### The tracer -/

/-- The characters in a block that was written. -/
def contents (p : Mem) : Option (List UInt8) := p.mapM id

/-- What the tracer does at the first stop, with what is in the variable of `poke_data`. -/
def edit (mem : Space) (addr : UInt64) (len : Nat) (data : List UInt8) : Option Space :=
  -- a byte more than the text, for the terminator
  (peekData mem addr (malloc (len + 1)) len).bind fun p =>
  (reverse p true).bind fun p =>
  (contents p).bind fun str => pokeData mem addr str len data

/-- The child and the tracer.  The last two fields record what the child has asked `write` for, and
    what the kernel has written. -/
structure Tracer where
  mem : Space
  call : Option (UInt64 × Nat) := none   -- the `write` that the child is in
  insyscall : Bool := false
  requested : List (List UInt8) := []
  written : List (List UInt8) := []

namespace Tracer

/-- What happens next: the child enters or leaves a `write` or another call, or changes its memory
    in between. -/
inductive Act where
  | compute (mem : Space)   -- the child runs
  | other                   -- a stop for another system call
  | enter (addr : UInt64) (len : Nat) (data : List UInt8)
  | leave (data : List UInt8)

/-- The child has not made a call. -/
def start (mem : Space) : Tracer := { mem := mem }

/-- A stop with `SYS_write`. -/
def onWrite (s : Tracer) (addr : UInt64) (len : Nat) (data : List UInt8) : Option Tracer :=
  if s.insyscall then some { s with insyscall := false }
  else (edit s.mem addr len data).map fun mem => { s with mem := mem, insyscall := true }

/-- One step.  The length is an `int`, and the variable of `poke_data` a `long`. -/
def step (s : Tracer) : Act → Option Tracer
  | .compute mem => if s.call.isNone then some { s with mem := mem } else none
  | .other => if s.call.isNone then some s else none
  | .enter addr len data =>
    if s.call.isNone ∧ len < 2 ^ 31 ∧ data.length = 8 then
      -- after the stop the kernel writes what is in the memory now
      (s.onWrite addr len data).map fun t => { t with
        call := some (addr, len)
        requested := s.requested ++ [bytesAt s.mem addr len]
        written := s.written ++ [bytesAt t.mem addr len] }
    else none
  | .leave data =>
    match s.call with
    | some (addr, len) => (s.onWrite addr len data).map fun t => { t with call := none }
    | none             => none

end Tracer

/-- A block with all its bytes written has contents. -/
theorem contents_map_some (str : List UInt8) : contents (str.map some) = some str := by
  induction str with
  | nil => rfl
  | cons c str ih =>
    rw [contents] at ih
    simp [contents, ih]

/-- The text without its end is not longer. -/
theorem length_core_le (bytes : List UInt8) : (core bytes).length ≤ bytes.length := by
  obtain ⟨spaces, htext, -⟩ := exists_spaces bytes
  obtain ⟨rest, hbytes, -⟩ := exists_rest htext
  have hlen := congrArg List.length hbytes
  rw [List.length_append] at hlen
  omega

/-- Turning the text around keeps its length. -/
theorem length_mirrored (bytes : List UInt8) : (mirrored bytes).length = bytes.length := by
  have hle := length_core_le bytes
  rw [mirrored, List.length_append, List.length_reverse, List.length_drop]
  omega

/-- So it is for the text that the child asks for. -/
theorem length_mirrored_bytesAt (mem : Space) (addr : UInt64) (len : Nat) :
    (mirrored (bytesAt mem addr len)).length = len := by
  rw [length_mirrored, length_bytesAt]

/-- What the tracer stores. -/
def stored (bytes data : List UInt8) : List UInt8 :=
  mirrored bytes ++ leftover (mirrored bytes ++ [0]) bytes.length data

/-- Whole words are stored. -/
theorem length_stored (bytes : List UInt8) (hdata : data.length = 8) :
    (stored bytes data).length = (bytes.length + 7) / 8 * 8 := by
  have hroom : bytes.length ≤ (mirrored bytes ++ [0]).length := by
    rw [List.length_append, length_mirrored]
    omega
  -- the last word is filled up from the variable of `poke_data`
  rw [stored, List.length_append, length_mirrored, length_leftover hdata hroom]
  omega

/-- The block that `peek_data` has filled. -/
theorem peekData_malloc (mem : Space) (addr : UInt64) (len : Nat) :
    peekData mem addr (malloc (len + 1)) len
      = some ((bytesAt mem addr len).map some ++ [some 0]) := by
  rw [peekData_eq (by simp [malloc]), malloc, List.drop_replicate, Nat.sub_self,
    List.replicate_zero]

/-- **The memory after the first stop**: the text is turned around, and the rest of its last word is
    what was in the variable of `poke_data`. -/
theorem edit_eq (hlen : len < 2 ^ 31) (hdata : data.length = 8)
    (h : core (bytesAt mem addr len) ≠ []) :
    edit mem addr len data = some (patch mem addr (stored (bytesAt mem addr len) data)) := by
  have hsize := length_mirrored_bytesAt mem addr len
  have hcontents := contents_map_some (mirrored (bytesAt mem addr len) ++ [0])
  rw [List.map_append, List.map_singleton] at hcontents
  rw [edit, peekData_malloc, Option.bind_some, reverse_eq h, Option.bind_some, hcontents,
    Option.bind_some, pokeData_eq (by simp [hsize]) hlen hdata, stored, length_bytesAt,
    List.take_left' hsize]

/-- A blank text leads `reverse` in front of its block. -/
theorem edit_blank (h : core (bytesAt mem addr len) = []) : edit mem addr len data = none := by
  rw [edit, peekData_malloc, Option.bind_some, reverse_blank h, Option.bind_none]

/-- An edit that has a result was not one of a blank text. -/
theorem core_ne_nil_of_edit (h : edit mem addr len data = some mem') :
    core (bytesAt mem addr len) ≠ [] := by
  intro hblank
  rw [edit_blank hblank] at h
  cases h

/-- What the handler has done, if it has a result. -/
theorem edit_spec (hlen : len < 2 ^ 31) (hdata : data.length = 8)
    (h : edit mem addr len data = some mem') :
    bytesAt mem' addr len = mirrored (bytesAt mem addr len) ∧
      ∀ b, (len + 7) / 8 * 8 ≤ offset addr b → mem' b = mem b := by
  rw [edit_eq hlen hdata (core_ne_nil_of_edit h)] at h
  cases h
  have hstored := length_stored (bytesAt mem addr len) hdata
  have hsize := length_mirrored_bytesAt mem addr len
  rw [length_bytesAt] at hstored
  constructor
  · rw [bytesAt_patch (by omega) (by omega), stored, List.take_left' hsize]
  · intro b hb
    rw [patch, List.getElem?_eq_none (by omega), Option.getD_none]

/-! ### Runs -/

namespace Tracer

variable {s s' : Tracer} {a : Act} {acts : List Act}

/-- The flag says where the child is, and what was written is what was asked for, turned around. -/
def Inv (s : Tracer) : Prop :=
  s.insyscall = s.call.isSome ∧ s.written = s.requested.map mirrored

/-- Nothing was written. -/
theorem inv_start (mem : Space) : Inv (start mem) := ⟨rfl, rfl⟩

/-- The first of the two stops. -/
theorem onWrite_outside (hs : Inv s) (hcall : s.call.isNone = true) :
    s.onWrite addr len data =
      (edit s.mem addr len data).map fun mem => { s with mem := mem, insyscall := true } := by
  have hout : s.insyscall = false := by
    rw [hs.1]
    simpa using hcall
  rw [onWrite, hout, if_neg Bool.false_ne_true]

/-- The child calls `write`. -/
theorem step_enter (hs : Inv s) (h : step s (.enter addr len data) = some s') :
    ∃ mem, edit s.mem addr len data = some mem ∧ len < 2 ^ 31 ∧ data.length = 8 ∧
      s' = { mem := mem, call := some (addr, len), insyscall := true,
             requested := s.requested ++ [bytesAt s.mem addr len],
             written := s.written ++ [bytesAt mem addr len] } := by
  rw [step, Option.ite_none_right_eq_some] at h
  obtain ⟨⟨hcall, hlen, hdata⟩, h⟩ := h
  rw [onWrite_outside hs hcall, Option.map_map, Option.map_eq_some_iff] at h
  obtain ⟨mem, hedit, rfl⟩ := h
  exact ⟨mem, hedit, hlen, hdata, rfl⟩

/-- The `write` returns. -/
theorem step_leave (hs : Inv s) (h : step s (.leave data) = some s') :
    s' = { s with call := none, insyscall := false } := by
  rw [step] at h
  cases hcall : s.call with
  | none =>
    rw [hcall] at h
    cases h
  | some p =>
    have hin : s.insyscall = true := by rw [hs.1, hcall]; rfl
    rw [hcall] at h
    simpa only [onWrite, hin, if_true, Option.map_some, Option.some.injEq, eq_comm] using h

/-- **One stop keeps the two records together**: what was written is what was asked for, turned
    around, and `insyscall` tells whether a `write` is on its way. -/
theorem inv_step (hs : Inv s) (h : step s a = some s') : Inv s' := by
  cases a with
  | compute mem =>
    rw [step, Option.ite_none_right_eq_some] at h
    cases h.2
    exact hs
  | other =>
    rw [step, Option.ite_none_right_eq_some] at h
    cases h.2
    exact hs
  | enter addr len data =>
    obtain ⟨mem, hedit, hlen, hdata, rfl⟩ := step_enter hs h
    refine ⟨rfl, ?_⟩
    rw [List.map_append, List.map_singleton, ← (edit_spec hlen hdata hedit).1, ← hs.2]
  | leave data =>
    obtain rfl := step_leave hs h
    exact ⟨rfl, hs.2⟩

/-- They are together in every run. -/
theorem inv_exec (h : exec step (start mem) acts = some s) : Inv s :=
  exec_invariant (fun _ _ _ => inv_step) (inv_start mem) h

/-- The tracer handles the call, unless the text is blank. -/
theorem step_enter_iff (hs : Inv s) (hcall : s.call = none) (hlen : len < 2 ^ 31)
    (hdata : data.length = 8) :
    (∃ s', step s (.enter addr len data) = some s') ↔ core (bytesAt s.mem addr len) ≠ [] := by
  constructor
  · rintro ⟨s', h⟩
    obtain ⟨mem, hedit, -⟩ := step_enter hs h
    exact core_ne_nil_of_edit hedit
  · intro hcore
    have hnone : s.call.isNone = true := by rw [hcall]; rfl
    rw [step, if_pos ⟨hnone, hlen, hdata⟩, onWrite_outside hs hnone, edit_eq hlen hdata hcore]
    exact ⟨_, rfl⟩

/-- **The tracer**, in every run in which the `ptrace` calls succeed and the child gets no signals:
    the kernel writes what the child has asked for, turned around, and `insyscall` is set exactly
    inside of a `write`.  At the next `write`, of fewer than `2 ^ 31` bytes, the tracer has a result
    exactly if the text is not blank, and it changes nothing behind the last word of the text. -/
theorem writes_mirrored (h : exec step (start mem) acts = some s) :
    s.written = s.requested.map mirrored ∧ (s.insyscall = true ↔ s.call.isSome = true) ∧
    (s.call = none → ∀ addr len data, len < 2 ^ 31 → data.length = 8 →
      ((∃ s', step s (.enter addr len data) = some s') ↔ core (bytesAt s.mem addr len) ≠ []) ∧
      ∀ s', step s (.enter addr len data) = some s' →
        ∀ b, (len + 7) / 8 * 8 ≤ offset addr b → s'.mem b = s.mem b) := by
  have hs := inv_exec h
  refine ⟨hs.2, by rw [hs.1], fun hcall addr len data hlen hdata => ?_⟩
  refine ⟨step_enter_iff hs hcall hlen hdata, fun s' hstep b hb => ?_⟩
  obtain ⟨mem, hedit, -, -, rfl⟩ := step_enter hs hstep
  exact (edit_spec hlen hdata hedit).2 b hb

/-- The child writes `"ab\n"`, and the kernel `"ba\n"`. -/
theorem writes_mirrored_line :
    ∃ s, exec step (start fun b => if b = 64 then 97 else if b = 65 then 98 else 10)
        [.other, .enter 64 3 [0, 0, 0, 0, 0, 0, 0, 0], .leave [0, 0, 0, 0, 0, 0, 0, 0]] = some s ∧
      s.requested = [[97, 98, 10]] ∧ s.written = [[98, 97, 10]] := by
  obtain ⟨s, hrun, hrequested⟩ := exists_of_exec_any (show
    (exec step (start fun b => if b = 64 then 97 else if b = 65 then 98 else 10)
      [.other, .enter 64 3 [0, 0, 0, 0, 0, 0, 0, 0], .leave [0, 0, 0, 0, 0, 0, 0, 0]]).any
      (fun s => s.requested = [[97, 98, 10]]) = true by decide +kernel)
  have hrequested := of_decide_eq_true hrequested
  refine ⟨s, hrun, hrequested, ?_⟩
  rw [(writes_mirrored hrun).1, hrequested]
  decide

/-- For an empty line the tracer reads in front of its block. -/
example : (step (start fun _ => 10) (.enter 64 1 [0, 0, 0, 0, 0, 0, 0, 0])).isNone = true := by
  decide +kernel

end Tracer

/-! ### Writing a text again -/

variable {rest : List UInt8}

/-- The core of a text is what stands in front of the white space at its end, up to the first
    NUL. -/
theorem core_append (htext : 0 ∉ text ++ [c]) (hc : isspace c = false)
    (hspaces : ∀ x ∈ spaces, isspace x = true) (hrest : rest.takeWhile (· ≠ 0) = []) :
    core ((text ++ [c]) ++ (spaces ++ rest)) = text ++ [c] := by
  have hzero : 0 ∉ spaces := fun h => absurd (hspaces 0 h) (by decide)
  have hwhole : ((text ++ [c]) ++ (spaces ++ rest)).takeWhile (· ≠ 0) =
      (text ++ [c]) ++ spaces := by
    rw [List.takeWhile_append_of_pos (CString.forall_mem_ne htext),
      List.takeWhile_append_of_pos (CString.forall_mem_ne hzero), hrest, List.append_nil]
  rw [core, hwhole, List.rdropWhile, List.reverse_append,
    List.dropWhile_append_of_pos fun x hx => hspaces x (List.mem_reverse.mp hx),
    List.reverse_append, List.reverse_singleton, List.singleton_append,
    List.dropWhile_cons_of_neg (by simp [hc]), List.reverse_cons, List.reverse_reverse]

/-- The core has no NUL in it. -/
theorem zero_notMem_core (bytes : List UInt8) : 0 ∉ core bytes := by
  obtain ⟨spaces, htext, -⟩ := exists_spaces bytes
  intro h
  have hmem : 0 ∈ bytes.takeWhile (· ≠ 0) := htext ▸ List.mem_append_left spaces h
  simpa using List.mem_takeWhile_imp hmem

/-- A text that does not begin with white space is restored. -/
theorem mirrored_mirrored (h : core bytes = c :: text) (hc : isspace c = false) :
    mirrored (mirrored bytes) = bytes := by
  obtain ⟨spaces, htext, hspaces⟩ := exists_spaces bytes
  obtain ⟨rest, hbytes, hrest⟩ := exists_rest htext
  have hmirrored : mirrored bytes = (text.reverse ++ [c]) ++ (spaces ++ rest) := by
    rw [mirrored, h, hbytes, h, List.drop_left, List.reverse_cons]
  have hzero : 0 ∉ text.reverse ++ [c] := by
    have hnone := zero_notMem_core bytes
    rw [h] at hnone
    rwa [← List.reverse_cons, List.mem_reverse]
  rw [hmirrored, mirrored, core_append hzero hc hspaces hrest, List.drop_left, ← List.reverse_cons,
    List.reverse_reverse, ← h, ← hbytes]

namespace Tracer

variable {s s' : Tracer} {acts : List Act} {data' data'' : List UInt8}

/-- **The same buffer twice**: the text was changed in the memory of the child, and the second time
    it is written as it was. -/
theorem written_twice (h : exec step (start mem) acts = some s)
    (hrun : exec step s [.enter addr len data, .leave data', .enter addr len data''] = some s')
    (hcore : core (bytesAt s.mem addr len) = c :: text) (hc : isspace c = false) :
    s'.written = s.written
      ++ [mirrored (bytesAt s.mem addr len), bytesAt s.mem addr len] := by
  obtain ⟨s₁, h₁, hrun⟩ := exec_cons_eq_some.mp hrun
  obtain ⟨s₂, h₂, hrun⟩ := exec_cons_eq_some.mp hrun
  obtain ⟨s₃, h₃, hrun⟩ := exec_cons_eq_some.mp hrun
  cases hrun
  have hs := inv_exec h
  have hs₁ := inv_step hs h₁
  have hs₂ := inv_step hs₁ h₂
  obtain ⟨mem₁, hedit₁, hlen, hdata, rfl⟩ := step_enter hs h₁
  obtain rfl := step_leave hs₁ h₂
  obtain ⟨mem₃, hedit₃, -, hdata'', rfl⟩ := step_enter hs₂ h₃
  have hfirst := (edit_spec hlen hdata hedit₁).1
  have hsecond := (edit_spec hlen hdata'' hedit₃).1
  simp only [hfirst, hsecond, mirrored_mirrored hcore hc, List.append_assoc, List.singleton_append]

end Tracer

end CPlayground.Ptrace
