import CPlayground.Lib.Cyclic
import CPlayground.Lib.Trace
import Mathlib.Logic.Function.Basic

namespace CPlayground.Relay

open CPlayground.Trace

/-!
# `Logger`: a ring of log files

The thread of `Logger::Run` reads what the process prints from a pipe, appends it to a file, and
looks at the size of the file after every hundred reads.  A file that is larger than the limit is
closed, and the next of the `N` files is emptied and takes its place.

What is printed is the text up to the first zero.  If `read` fails, the length is -1, and `fprintf`
takes the whole buffer: what was read before is printed once more.

* `Logger.step` — one round of the loop.
* `Logger.log_kept` — in every run the text is in the files in order, the last `N` files are
  there, and no file exceeds the limit by more than a hundred buffers.
-/

namespace Logger

/-- The arguments of `CreateLogger`: the files, the limit and the buffer. -/
structure Config where
  N : Nat
  filesize : Nat
  BL : Nat
  pos : 0 < N

end Logger

/-- The `Logger` and its files.  The last two fields record what was printed, and the files that
    were closed. -/
structure Logger where
  files : Nat → List UInt8
  i : Nat
  count : Nat
  buffer : List UInt8
  printed : List UInt8
  closed : List (List UInt8)

namespace Logger

/-- What `read` returns; `none` is -1. -/
abbrev Result := Option (List UInt8)

/-- The buffer after `read`. -/
def fill (buffer : List UInt8) : Result → List UInt8
  | some bytes => bytes ++ buffer.drop bytes.length
  | none       => buffer

/-- `"%.*s"` with the length and the buffer. -/
def text (buffer : List UInt8) : Result → List UInt8
  | some bytes => bytes.takeWhile (· ≠ 0)
  | none       => buffer.takeWhile (· ≠ 0)

/-- `fprintf` and `fflush`. -/
def put (s : Logger) (t : List UInt8) : Logger :=
  { s with
    files := Function.update s.files s.i (s.files s.i ++ t)
    printed := s.printed ++ t }

/-- `Next()` with an open file: it is closed, and the next one is opened with `"w"`. -/
def next (cfg : Config) (s : Logger) : Logger :=
  { s with
    i := Cyclic.next cfg.N s.i
    files := Function.update s.files (Cyclic.next cfg.N s.i) []
    closed := s.closed ++ [s.files s.i] }

/-- One round of the loop: a `read`, what is printed of the buffer, and after every hundredth round
    a look at the size of the file. -/
def step (cfg : Config) (s : Logger) (r : Result) : Option Logger :=
  if (r.getD []).length ≤ cfg.BL then
    let s := { s with buffer := fill s.buffer r }.put (text s.buffer r)
    if 100 ≤ s.count + 1 then
      let s := { s with count := 0 }
      if cfg.filesize < (s.files s.i).length then some (s.next cfg) else some s
    else some { s with count := s.count + 1 }
  else none

/-- The logger in front of the loop: `Next()` has opened the first file.  The files may be left from
    another process. -/
def start (cfg : Config) (files : Nat → List UInt8) : Logger where
  files := Function.update files 0 []
  i := 0
  count := 0
  buffer := List.replicate cfg.BL 0
  printed := []
  closed := []

/-! ### The invariant -/

variable {cfg : Config} {s s' : Logger} {t : List UInt8}

/-- What holds between two rounds.  `excess` is how many buffers the file may be above its limit. -/
structure Inv (cfg : Config) (s : Logger) (excess : Nat) : Prop where
  buffer : s.buffer.length = cfg.BL
  slot : s.i = s.closed.length % cfg.N
  printed : s.printed = s.closed.flatten ++ s.files s.i
  kept : ∀ k seg, s.closed[k]? = some seg → s.closed.length < k + cfg.N → s.files (k % cfg.N) = seg
  current : (s.files s.i).length ≤ cfg.filesize + excess * cfg.BL
  sizes : ∀ seg ∈ s.closed, seg.length ≤ cfg.filesize + 100 * cfg.BL

/-- The first file is empty, and nothing was printed. -/
theorem inv_start (cfg : Config) (files : Nat → List UInt8) : Inv cfg (start cfg files) 0 where
  buffer := List.length_replicate
  slot := (Nat.zero_mod _).symm
  printed := by simp [start]
  kept k seg hk := by cases hk
  current := by simp [start]
  sizes := nofun

/-- What is printed for a `read` fits into the buffer. -/
theorem length_text_le {buffer : List UInt8} {r : Result} (hbuffer : buffer.length = cfg.BL)
    (hr : (r.getD []).length ≤ cfg.BL) : (text buffer r).length ≤ cfg.BL := by
  cases r with
  | some bytes => exact Nat.le_trans (List.takeWhile_sublist _).length_le hr
  | none => exact Nat.le_trans (List.takeWhile_sublist _).length_le (Nat.le_of_eq hbuffer)

/-- The buffer keeps its length. -/
theorem length_fill {buffer : List UInt8} {r : Result} (hbuffer : buffer.length = cfg.BL)
    (hr : (r.getD []).length ≤ cfg.BL) : (fill buffer r).length = cfg.BL := by
  cases r with
  | some bytes =>
    rw [Option.getD_some] at hr
    rw [fill, List.length_append, List.length_drop]
    omega
  | none => exact hbuffer

/-- An older file that is still there is not the one in use. -/
theorem slot_ne {excess k : Nat} (h : Inv cfg s excess) (hk : k < s.closed.length)
    (hturn : s.closed.length < k + cfg.N) : k % cfg.N ≠ s.i := by
  rw [h.slot]
  exact Cyclic.mod_ne hk hturn

/-- Printing a text. -/
theorem inv_put {excess : Nat} {buffer : List UInt8} (h : Inv cfg s excess)
    (hbuffer : buffer.length = cfg.BL) (ht : t.length ≤ cfg.BL) :
    Inv cfg ({ s with buffer := buffer }.put t) (excess + 1) := by
  refine ⟨hbuffer, h.slot, ?_, fun k seg hk hturn => ?_, ?_, h.sizes⟩
  · simp only [put, Function.update_self, h.printed, List.append_assoc]
  · have hlt : k < s.closed.length := (List.getElem?_eq_some_iff.mp hk).1
    simp only [put, Function.update_of_ne (slot_ne h hlt hturn)]
    exact h.kept k seg hk hturn
  · have hcurrent := h.current
    simp only [put, Function.update_self, List.length_append, Nat.succ_mul]
    omega

/-- The file in use is closed, and the next one begins: it takes the place of the oldest. -/
theorem inv_next (h : Inv cfg s 100) : Inv cfg (s.next cfg) 0 := by
  have hslot : Cyclic.next cfg.N s.i = (s.closed.length + 1) % cfg.N := by
    rw [h.slot, Cyclic.next_mod cfg.pos]
  refine ⟨h.buffer, ?_, ?_, fun k seg hk hturn => ?_, ?_, ?_⟩
  · simp only [next, List.length_append, List.length_singleton, hslot]
  · simp only [next, Function.update_self, List.flatten_append, List.flatten_singleton,
      List.append_nil, h.printed]
  · have hlt : k < s.closed.length + 1 := by
      have hlt := (List.getElem?_eq_some_iff.mp hk).1
      simpa only [next, List.length_append, List.length_singleton] using hlt
    simp only [next, List.length_append, List.length_singleton] at hturn
    have hne : k % cfg.N ≠ Cyclic.next cfg.N s.i := by
      rw [hslot]
      exact Cyclic.mod_ne hlt hturn
    simp only [next, Function.update_of_ne hne]
    rcases Nat.lt_succ_iff_lt_or_eq.mp hlt with hold | rfl
    · simp only [next, List.getElem?_append_left hold] at hk
      exact h.kept k seg hk (by omega)
    · -- the file that was in use until now
      simp only [next, List.getElem?_concat_length, Option.some.injEq] at hk
      rw [← h.slot, hk]
  · simp only [next, Function.update_self, List.length_nil]
    exact Nat.zero_le _
  · intro seg hseg
    rcases List.mem_append.mp hseg with hseg | hseg
    · exact h.sizes seg hseg
    · rw [List.mem_singleton.mp hseg]
      exact h.current

/-- The count of the reads is not in the invariant. -/
theorem Inv.of_count {excess count : Nat} (h : Inv cfg s excess) :
    Inv cfg { s with count := count } excess :=
  ⟨h.buffer, h.slot, h.printed, h.kept, h.current, h.sizes⟩

/-- A round, with the count as the excess: each round adds one buffer at most to the file. -/
theorem inv_step {r : Result} (h : Inv cfg s s.count) (hcount : s.count < 100)
    (hst : step cfg s r = some s') : Inv cfg s' s'.count ∧ s'.count < 100 := by
  rw [step, Option.ite_none_right_eq_some] at hst
  obtain ⟨hr, hst⟩ := hst
  have hput := inv_put h (length_fill h.buffer hr) (length_text_le h.buffer hr)
  dsimp only at hst
  split at hst
  · rename_i hhundred
    have hlast : s.count + 1 = 100 := by
      have hle : 100 ≤ s.count + 1 := hhundred
      omega
    rw [hlast] at hput
    split at hst
    · cases hst
      exact ⟨inv_next hput.of_count, Nat.zero_lt_succ _⟩
    · rename_i hsmall
      cases hst
      refine ⟨⟨hput.buffer, hput.slot, hput.printed, hput.kept, ?_, hput.sizes⟩,
        Nat.zero_lt_succ _⟩
      exact Nat.le_trans (Nat.le_of_not_lt hsmall) (Nat.le_add_right _ _)
  · rename_i hless
    cases hst
    exact ⟨hput.of_count, Nat.lt_of_not_le hless⟩

/-! ### The runs -/

/-- **The log is kept.**  In every run, what was printed is the content of the files that were
    closed, in order, and of the one in use; of the closed files the last `N - 1` are still there;
    and no file is larger than the limit and a hundred buffers. -/
theorem log_kept (cfg : Config) (files : Nat → List UInt8) (results : List Result) (s : Logger)
    (hrun : exec (step cfg) (start cfg files) results = some s) :
    s.printed = s.closed.flatten ++ s.files s.i ∧
      (∀ k seg, s.closed[k]? = some seg → s.closed.length < k + cfg.N →
        s.files (k % cfg.N) = seg) ∧
      (∀ seg ∈ s.files s.i :: s.closed, seg.length ≤ cfg.filesize + 100 * cfg.BL) := by
  have hinv : Inv cfg s s.count ∧ s.count < 100 :=
    exec_invariant (P := fun s => Inv cfg s s.count ∧ s.count < 100)
      (fun _ _ _ h hst => inv_step h.1 h.2 hst) ⟨inv_start cfg files, Nat.zero_lt_succ _⟩ hrun
  obtain ⟨hinv, hcount⟩ := hinv
  refine ⟨hinv.printed, hinv.kept, List.forall_mem_cons.mpr ⟨?_, hinv.sizes⟩⟩
  exact Nat.le_trans hinv.current
    (Nat.add_le_add_left (Nat.mul_le_mul_right _ (Nat.le_of_lt hcount)) _)

/-- Two files of fifty bytes, and a byte in each read: after a hundred of them the second file is in
    use.  Then a read fails, and the last byte is printed again. -/
def twoFiles : Config := ⟨2, 50, 1, by decide⟩

/-- A hundred reads fill the first file over its limit; a failed read then prints the buffer once
    more, into the second one. -/
theorem log_kept_twoFiles : ∃ s, exec (step twoFiles) (start twoFiles fun _ => [])
      (List.replicate 100 (some [65]) ++ [none]) = some s ∧
    s.closed.length = 1 ∧ s.files 1 = [65] ∧ s.printed = s.closed.flatten ++ [65] := by
  obtain ⟨s, hrun, htest⟩ := exists_of_exec_any
    (show (exec (step twoFiles) (start twoFiles fun _ => [])
      (List.replicate 100 (some [65]) ++ [none])).any (fun s => s.closed.length = 1 ∧
        s.files 1 = [65] ∧ s.i = 1) = true by decide +kernel)
  obtain ⟨hclosed, hfile, hi⟩ := of_decide_eq_true htest
  have hprinted := (log_kept twoFiles _ _ s hrun).1
  rw [hi, hfile] at hprinted
  exact ⟨s, hrun, hclosed, hfile, hprinted⟩

end Logger

end CPlayground.Relay
