import CPlayground.Lib.CInt
import CPlayground.Lib.Cyclic
import CPlayground.Lib.Trace
import Mathlib.Data.List.Basic
import Mathlib.Data.List.Induction

namespace CPlayground

open CInt Cyclic

/-!
# `ring_buffer.c`

A ring of blocks in one allocation, with the table of their addresses in front of them, and a
window over the last weights that were added, which keeps them in the blocks of a ring.

* `RingBuffer.init_eq` — the stride is what `ALIGN` gives: the conditional operator has the lowest
  precedence, so that is `8` or `0` and never the block size rounded up.
* `RingBuffer.blocks_disjoint` — the blocks are handed out in a circle, and they are disjoint and
  inside the allocation exactly if a block has at most eight bytes.
* `WeightWindow.Holds` — what is in the fields and in the slots after the weights of a list; one
  addition keeps it (`Holds.addWeight`), hence every run does (`holds_run`).
* `WeightWindow.window_slides` — the average is the one of the last weights exactly if the length of
  the window is an `int`.
-/

/-! ### The ring -/

/-- `struct ring_buffer_t`.  An address is its distance from `blob`, and `blob` is the number of
    bytes that are allocated there. -/
structure RingBuffer where
  data : List Nat
  size : Nat
  capacity : Nat
  blob : Nat
  deriving DecidableEq

namespace RingBuffer

/-- `ALIGN(x)`.  The sum is the condition of the conditional operator, and `~7U` has 32 bits. -/
def align (x : Nat) : Nat := if (x &&& 0xfffffff8) + (x &&& 7) ≠ 0 then 8 else 0

/-- The loop of `ring_buffer_init` from `data[i]=p` on, with `n` rounds to go.  The table is in the
    allocation itself. -/
def fill (blob stride : Nat) : Nat → Nat → Nat → Option (List Nat)
  | 0,     _, _ => some []
  | n + 1, i, p =>
      if 8 * i + 8 ≤ blob then (fill blob stride n (i + 1) (p + stride)).map (p :: ·) else none

/-- `ring_buffer_init`; `malloc` does not fail, and sizes are computed modulo `2 ^ 64`. -/
def init (capacity block : Nat) : Option RingBuffer :=
  let blob := capacity * (8 + align block) % 2 ^ 64
  (fill blob (align block) capacity 0 (capacity * 8 % 2 ^ 64)).map fun data =>
    { data, size := 0, capacity, blob }

/-- `ring_buffer_get`: the block and the ring after it. -/
def get (r : RingBuffer) : Option (Nat × RingBuffer) :=
  (r.data[r.size]?).map fun p =>
    (p, { r with size := next r.capacity r.size })

/-- The blocks that `n` calls of `ring_buffer_get` return. -/
def gets : Nat → RingBuffer → Option (List Nat)
  | 0,     _ => some []
  | n + 1, r => r.get.bind fun (p, r) => (gets n r).map (p :: ·)

variable {r : RingBuffer} {capacity block blob stride i n p : Nat}

/-- The blocks in the order of the table, one stride apart. -/
def layout (capacity stride : Nat) : List Nat :=
  (List.range capacity).map fun i => capacity * 8 + i * stride

/-- Where a block begins: behind the table of the addresses, one stride after another. -/
theorem layout_getElem? (h : i < capacity) :
    (layout capacity stride)[i]? = some (capacity * 8 + i * stride) := by
  simp [layout, h]

/-- There are as many blocks as the capacity says. -/
theorem length_layout : (layout capacity stride).length = capacity := by simp [layout]

/-- The loop of `init` fills the table in front of the blocks. -/
theorem fill_eq (h : 8 * (i + n) ≤ blob) :
    fill blob stride n i p = some ((List.range n).map fun k => p + k * stride) := by
  induction n generalizing i p with
  | zero => rfl
  | succ n ih =>
    rw [fill, if_pos (by omega), ih (by omega), List.range_succ_eq_map, List.map_cons,
      List.map_map, Option.map_some]
    congr 2
    · omega
    · apply List.map_congr_left
      intro k _
      show p + stride + k * stride = p + (k + 1) * stride
      rw [Nat.succ_mul]
      omega

/-- `ALIGN` is never more than eight. -/
theorem align_le (x : Nat) : align x ≤ 8 := by
  rw [align]
  split <;> omega

/-- A block size below `2 ^ 32` gets one word, whatever it is. -/
theorem align_eq (h : 1 ≤ block) (hlt : block < 2 ^ 32) : align block = 8 := by
  rw [align, if_pos]
  intro hzero
  have hhigh : block &&& 0xfffffff8 = 0 := by omega
  have hlow : block &&& 7 = 0 := by omega
  -- the two masks together keep all the 32 bits
  have hall : block &&& 2 ^ 32 - 1 = 0 := by
    have hor : 2 ^ 32 - 1 = 0xfffffff8 ||| 7 := by decide
    rw [hor, Nat.and_or_distrib_left, hhigh, hlow]
    rfl
  rw [Nat.and_two_pow_sub_one_eq_mod, Nat.mod_eq_of_lt hlt] at hall
  omega

/-- **What `ring_buffer_init` sets up**, if the sizes do not overflow: the table of the addresses,
    and behind it the blocks, one stride apart. -/
theorem init_eq (h : capacity * (8 + align block) < 2 ^ 64) :
    init capacity block = some
      { data := layout capacity (align block), size := 0, capacity,
        blob := capacity * (8 + align block) } := by
  have hdist := Nat.mul_add capacity 8 (align block)
  rw [init, Nat.mod_eq_of_lt h, Nat.mod_eq_of_lt (by omega), fill_eq (by omega)]
  rfl

/-- One call of `ring_buffer_get` at position `n`. -/
theorem get_eq (hlen : r.data.length = r.capacity) (hpos : 0 < r.capacity)
    (hsize : r.size = n % r.capacity) :
    ∃ p, r.data[n % r.capacity]? = some p ∧
      r.get = some (p, { r with size := (n + 1) % r.capacity }) := by
  have hlt : n % r.capacity < r.data.length := by
    rw [hlen]
    exact Nat.mod_lt n hpos
  refine ⟨_, List.getElem?_eq_getElem hlt, ?_⟩
  rw [get, hsize, next_mod hpos, List.getElem?_eq_getElem hlt, Option.map_some]

/-- The blocks are handed out in a circle: the next one is that of `size`, which wraps around at the
    capacity. -/
theorem gets_eq (hlen : r.data.length = r.capacity) (hpos : 0 < r.capacity)
    (hsize : r.size = i % r.capacity) :
    ∃ ps, gets n r = some ps ∧ ps.length = n ∧
      ∀ k < n, ps[k]? = r.data[(i + k) % r.capacity]? := by
  induction n generalizing r i with
  | zero => exact ⟨[], rfl, rfl, by omega⟩
  | succ n ih =>
    obtain ⟨p, hp, hget⟩ := get_eq hlen hpos hsize
    obtain ⟨ps, hps, hlength, hblocks⟩ :=
      ih (r := { r with size := (i + 1) % r.capacity }) hlen hpos rfl
    refine ⟨p :: ps, ?_, congrArg (· + 1) hlength, ?_⟩
    · rw [gets, hget]
      exact congrArg (Option.map (p :: ·)) hps
    · intro k hk
      cases k with
      | zero => exact hp.symm
      | succ k =>
        rw [List.getElem?_cons_succ, hblocks k (by omega), Nat.add_assoc, Nat.add_comm 1 k]

/-- The blocks of `block` bytes are disjoint, behind the table of the addresses, and inside the
    allocation. -/
structure Disjoint (r : RingBuffer) (block : Nat) : Prop where
  apart : r.data.Pairwise fun p q => p + block ≤ q ∨ q + block ≤ p
  table : ∀ p ∈ r.data, 8 * r.capacity ≤ p
  inside : ∀ p ∈ r.data, p + block ≤ r.blob

/-- `ring_buffer_get` hands out the blocks of the table one after another, again and again. -/
def Circular (r : RingBuffer) : Prop :=
  ∀ n, ∃ ps, gets n r = some ps ∧ ps.length = n ∧ ∀ k < n, ps[k]? = r.data[k % r.capacity]?

/-- Blocks that are not longer than the stride are disjoint, as their addresses are a multiple of
    the stride apart. -/
theorem disjoint_of_le (h : block ≤ stride) :
    Disjoint ⟨layout capacity stride, i, capacity, capacity * (8 + stride)⟩ block := by
  refine ⟨?_, ?_, ?_⟩
  · refine List.Pairwise.map _ (fun a b (hab : a < b) => Or.inl ?_) List.pairwise_lt_range
    calc capacity * 8 + a * stride + block
        ≤ capacity * 8 + (a + 1) * stride := by rw [Nat.succ_mul]; omega
      _ ≤ capacity * 8 + b * stride := Nat.add_le_add_left (Nat.mul_le_mul_right _ hab) _
  · intro p hp
    obtain ⟨a, -, rfl⟩ := List.mem_map.mp hp
    show 8 * capacity ≤ _
    omega
  · intro p hp
    obtain ⟨a, ha, rfl⟩ := List.mem_map.mp hp
    calc capacity * 8 + a * stride + block
        ≤ capacity * 8 + (a + 1) * stride := by rw [Nat.succ_mul]; omega
      _ ≤ capacity * 8 + capacity * stride :=
          Nat.add_le_add_left (Nat.mul_le_mul_right _ (List.mem_range.mp ha)) _
      _ = capacity * (8 + stride) := (Nat.mul_add _ _ _).symm

/-- The last block ends behind the allocation if it is longer than the stride. -/
theorem not_disjoint (hcap : 1 ≤ capacity) (h : stride < block) :
    ¬ Disjoint ⟨layout capacity stride, i, capacity, capacity * (8 + stride)⟩ block := by
  intro hdisjoint
  obtain ⟨c, rfl⟩ : ∃ c, capacity = c + 1 := ⟨capacity - 1, by omega⟩
  have hlast := hdisjoint.inside _ (List.mem_map_of_mem (List.mem_range.mpr (Nat.lt_succ_self c)))
  have hend : (c + 1) * 8 + c * stride + block ≤ (c + 1) * (8 + stride) := hlast
  rw [Nat.mul_add, Nat.succ_mul c stride] at hend
  omega

/-- **The blocks of a ring.**  They are handed out in a circle, but they are disjoint only up to
    eight bytes. -/
theorem blocks_disjoint {capacity block : Nat} (hcap : 1 ≤ capacity) (hblock : 1 ≤ block)
    (hsize : capacity * (8 + align block) < 2 ^ 64) :
    ∃ r, init capacity block = some r ∧ r.data.length = capacity ∧ Circular r ∧
      (Disjoint r block ↔ block ≤ 8) := by
  refine ⟨_, init_eq hsize, length_layout, ?_, ?_⟩
  · intro n
    obtain ⟨ps, hps, hlength, hblocks⟩ := gets_eq (n := n) (i := 0)
      (r := ⟨layout capacity (align block), 0, capacity, capacity * (8 + align block)⟩)
      length_layout hcap (Nat.zero_mod _).symm
    refine ⟨ps, hps, hlength, fun k hk => ?_⟩
    rw [hblocks k hk, Nat.zero_add]
  · constructor
    · intro h
      by_contra hlt
      exact not_disjoint hcap (lt_of_le_of_lt (align_le block) (by omega)) h
    · intro h
      exact disjoint_of_le (by rw [align_eq hblock (by omega)]; exact h)

/-- Three blocks of four bytes. -/
theorem blocks_disjoint_words : ∃ r, init 3 4 = some r ∧ r.data.length = 3 ∧ Circular r ∧
    (Disjoint r 4 ↔ 4 ≤ 8) :=
  blocks_disjoint (by decide) (by decide) (by decide)

/-- Two blocks of sixteen bytes: the second one starts in the middle of the first one and ends
    behind the allocation. -/
theorem blocks_overlap : ∃ r, init 2 16 = some r ∧ r.data = [16, 24] ∧ r.blob = 32 ∧
    ¬ Disjoint r 16 := by
  refine ⟨⟨[16, 24], 0, 2, 32⟩, by decide, rfl, rfl, ?_⟩
  intro h
  have hend := h.inside 24 (by decide)
  exact absurd hend (by decide)

end RingBuffer

/-! ### The window -/

/-- `struct weight_window_t`.  `cells` are the numbers stored in the blocks of `buffer`, by their
    addresses; `none` is memory that has not been written. -/
structure WeightWindow where
  sum : Int
  isFull : Bool
  length : Nat
  buffer : RingBuffer
  cells : Nat → Option Int32

namespace WeightWindow

/-- `weight_window_init`. -/
def init (length : Nat) : Option WeightWindow :=
  (RingBuffer.init length 4).map fun buffer =>
    { sum := 0, isFull := false, length, buffer, cells := fun _ => none }

/-- `*p`. -/
def load (w : WeightWindow) (p : Nat) : Option Int32 :=
  if p + 4 ≤ w.buffer.blob then w.cells p else none

/-- `sum` and `is_full` after the `if` of `weight_window_add_weight`. -/
def slide (w : WeightWindow) (p : Nat) (buffer : RingBuffer) (sum : Int) : Option (Int × Bool) :=
  if w.isFull then (w.load p).bind fun old => (checked (sum - old.toInt)).map fun sum => (sum, true)
  else some (sum, buffer.size == 0)

/-- `weight_window_add_weight`. -/
def addWeight (w : WeightWindow) (weight : Int32) : Option WeightWindow :=
  w.buffer.get.bind fun (p, buffer) => (checked (w.sum + weight.toInt)).bind fun sum =>
    (w.slide p buffer sum).bind fun (sum, isFull) =>
      if p + 4 ≤ buffer.blob then
        some { w with sum, isFull, buffer, cells := Function.update w.cells p (some weight) }
      else none

/-- `weight_window_average`: the length is converted to `int`. -/
def average (w : WeightWindow) : Option Int :=
  if ofSize w.length = 0 then none else checked (w.sum.tdiv (ofSize w.length))

/-- A new window and then the weights, one after another. -/
def run (length : Nat) (weights : List Int32) : Option WeightWindow :=
  (init length).bind fun w => Trace.exec addWeight w weights

/-- The sum of a list of weights. -/
def total (vs : List Int32) : Int := vs.foldr (fun v s => v.toInt + s) 0

/-- The sum of the last `L` weights, or of all if there are less. -/
def lastSum (L : Nat) (vs : List Int32) : Int := total (vs.drop (vs.length - L))

/-- At every moment the last `L` weights and the last `L + 1` have a sum that is an `int`. -/
def Fits (L : Nat) (vs : List Int32) : Prop :=
  ∀ us, us <+: vs → IsInt (lastSum L us) ∧ IsInt (lastSum (L + 1) us)

/-- The window shows the last `L` weights after every sequence of them. -/
def Slides (L : Nat) : Prop :=
  ∀ vs, Fits L vs → ∃ w, run L vs = some w ∧ w.sum = lastSum L vs ∧
    (w.isFull = true ↔ L ≤ vs.length) ∧ average w = some ((lastSum L vs).tdiv L)

variable {L : Nat} {vs us : List Int32} {v : Int32} {w w' : WeightWindow}

/-! ### Sums of the last weights -/

/-- A weight is added to the sum. -/
theorem total_concat (vs : List Int32) (v : Int32) : total (vs ++ [v]) = total vs + v.toInt := by
  induction vs with
  | nil => exact Int.add_comm _ _
  | cons u vs ih =>
    show u.toInt + total (vs ++ [v]) = u.toInt + total vs + v.toInt
    rw [ih, Int.add_assoc]

/-- The sum of no weights. -/
theorem lastSum_nil (L : Nat) : lastSum L [] = 0 := by simp [lastSum, total]

/-- The sum before the oldest weight is taken out. -/
theorem lastSum_succ (L : Nat) (vs : List Int32) (v : Int32) :
    lastSum (L + 1) (vs ++ [v]) = lastSum L vs + v.toInt := by
  rw [lastSum, List.length_append, List.length_singleton, Nat.add_sub_add_right,
    List.drop_append_of_le_length (Nat.sub_le _ _), total_concat, lastSum]

/-- As long as the window is not full, no weight leaves it. -/
theorem lastSum_of_lt (h : vs.length < L) (v : Int32) :
    lastSum L (vs ++ [v]) = lastSum L vs + v.toInt := by
  rw [← lastSum_succ, lastSum, lastSum, List.length_append, List.length_singleton]
  congr 2
  omega

/-- The weight that leaves a full window. -/
theorem lastSum_of_le (h : L ≤ vs.length) {old : Int32}
    (hold : vs[vs.length - L]? = some old) (v : Int32) :
    lastSum L (vs ++ [v]) = lastSum L vs + v.toInt - old.toInt := by
  obtain ⟨hlt, rfl⟩ := List.getElem?_eq_some_iff.mp hold
  have hnew : lastSum L (vs ++ [v]) = total (vs.drop (vs.length - L + 1)) + v.toInt := by
    rw [lastSum, List.length_append, List.length_singleton, ← total_concat,
      ← List.drop_append_of_le_length (by omega)]
    congr 2
    omega
  have hsum : lastSum L vs = vs[vs.length - L].toInt + total (vs.drop (vs.length - L + 1)) := by
    rw [lastSum, List.drop_eq_getElem_cons hlt]
    rfl
  rw [hnew, hsum]
  omega

/-! ### The state after a sequence of weights -/

/-- The address of a slot. -/
def slot (L i : Nat) : Nat := L * 8 + i * 8

/-- What is in the window after the weights `vs`: each of the last `L` is in the slot of its
    position. -/
structure Holds (L : Nat) (vs : List Int32) (w : WeightWindow) : Prop where
  sum : w.sum = lastSum L vs
  isFull : w.isFull = decide (L ≤ vs.length)
  length : w.length = L
  buffer : w.buffer = ⟨RingBuffer.layout L 8, vs.length % L, L, L * 16⟩
  cells : ∀ i v, vs[i]? = some v → vs.length ≤ i + L → w.cells (slot L (i % L)) = some v

/-- A new window is empty, and its memory is that of its length. -/
theorem holds_init (hL : 1 ≤ L) (hsize : L * 16 < 2 ^ 64) :
    ∃ w, init L = some w ∧ Holds L [] w := by
  have halign : RingBuffer.align 4 = 8 := by decide
  have hinit : RingBuffer.init L 4 = some ⟨RingBuffer.layout L 8, 0, L, L * 16⟩ := by
    rw [RingBuffer.init_eq (by rw [halign]; exact hsize), halign]
  refine ⟨⟨0, false, L, ⟨RingBuffer.layout L 8, 0, L, L * 16⟩, fun _ => none⟩, ?_, ?_⟩
  · rw [init, hinit, Option.map_some]
  · refine ⟨?_, ?_, rfl, ?_, ?_⟩
    · exact (lastSum_nil L).symm
    · exact (decide_eq_false (by simp only [List.length_nil]; omega)).symm
    · rw [List.length_nil, Nat.zero_mod]
    · intro i v hv
      rw [List.getElem?_nil] at hv
      exact absurd hv (by simp)

/-- The block that is used for the next weight. -/
theorem Holds.get (h : Holds L vs w) (hL : 1 ≤ L) :
    w.buffer.get = some (slot L (vs.length % L),
      ⟨RingBuffer.layout L 8, (vs.length + 1) % L, L, L * 16⟩) := by
  rw [h.buffer, RingBuffer.get]
  show ((RingBuffer.layout L 8)[vs.length % L]?).map _ = _
  rw [RingBuffer.layout_getElem? (Nat.mod_lt _ hL), Option.map_some, next_mod hL]
  rfl

/-- Every slot is in the allocation. -/
theorem slot_le (hL : 1 ≤ L) (n : Nat) : slot L (n % L) + 4 ≤ L * 16 := by
  have hlt := Nat.mod_lt n hL
  rw [slot]
  omega

/-- The slot of the next weight holds the oldest one as soon as the window is full. -/
theorem Holds.load (h : Holds L vs w) (hL : 1 ≤ L) (hfull : L ≤ vs.length) :
    ∃ old, vs[vs.length - L]? = some old ∧ w.load (slot L (vs.length % L)) = some old := by
  have hlt : vs.length - L < vs.length := by omega
  have hold := List.getElem?_eq_getElem hlt
  refine ⟨_, hold, ?_⟩
  have hmod : (vs.length - L) % L = vs.length % L := by
    rw [← Nat.add_mod_right, Nat.sub_add_cancel hfull]
  have hcell := h.cells _ _ hold (by omega)
  rw [hmod] at hcell
  rw [WeightWindow.load, h.buffer, if_pos (slot_le hL _), hcell]

/-- What the `if` makes of the sum: in a full window the weight of the slot, which is the oldest
    one, is subtracted. -/
theorem Holds.slide (h : Holds L vs w) (hL : 1 ≤ L) (hfit : IsInt (lastSum L (vs ++ [v]))) :
    w.slide (slot L (vs.length % L)) ⟨RingBuffer.layout L 8, (vs.length + 1) % L, L, L * 16⟩
      (lastSum L vs + v.toInt)
        = some (lastSum L (vs ++ [v]), decide (L ≤ (vs ++ [v]).length)) := by
  rw [WeightWindow.slide, h.isFull, List.length_append, List.length_singleton]
  by_cases hfull : L ≤ vs.length
  · obtain ⟨old, hold, hload⟩ := h.load hL hfull
    rw [lastSum_of_le hfull hold] at hfit ⊢
    rw [if_pos (decide_eq_true hfull), hload, Option.bind_some, checked_of_isInt hfit,
      Option.map_some, decide_eq_true (by omega)]
  · rw [if_neg (by simpa using hfull), lastSum_of_lt (by omega)]
    -- the ring is back at its first slot exactly if this was the last one that was free
    have hback : (vs.length + 1) % L = 0 ↔ L ≤ vs.length + 1 := by
      constructor
      · intro hzero
        exact Nat.le_of_dvd (by omega) (Nat.dvd_of_mod_eq_zero hzero)
      · intro hle
        rw [show vs.length + 1 = L by omega, Nat.mod_self]
    congr 2
    rw [Bool.eq_iff_iff, beq_iff_eq, decide_eq_true_iff]
    exact hback

/-- A weight is in its slot until the window has gone round once: the slots of the weights that came
    after it are others. -/
theorem Holds.update (h : Holds L vs w) {i : Nat} {u : Int32} (hu : (vs ++ [v])[i]? = some u)
    (hle : vs.length + 1 ≤ i + L) :
    Function.update w.cells (slot L (vs.length % L)) (some v) (slot L (i % L)) = some u := by
  rcases Nat.lt_or_ge i vs.length with hi | hi
  · -- the other weights of the last turn are in other slots
    have hne : slot L (i % L) ≠ slot L (vs.length % L) := by
      have hmod : i % L ≠ vs.length % L := mod_ne hi (by omega)
      rw [slot, slot]
      omega
    rw [List.getElem?_append_left hi] at hu
    rw [Function.update_of_ne hne, h.cells i u hu (by omega)]
  · obtain ⟨hlt, -⟩ := List.getElem?_eq_some_iff.mp hu
    rw [List.length_append, List.length_singleton] at hlt
    obtain rfl : i = vs.length := by omega
    rw [List.getElem?_concat_length] at hu
    rw [Function.update_self, hu]

/-- **One addition.**  The oldest weight leaves the sum when the window is full, and the new one
    takes its place in the ring. -/
theorem Holds.addWeight (h : Holds L vs w) (hL : 1 ≤ L) (hfit : IsInt (lastSum L (vs ++ [v])))
    (hfit' : IsInt (lastSum (L + 1) (vs ++ [v]))) :
    ∃ w', addWeight w v = some w' ∧ Holds L (vs ++ [v]) w' := by
  rw [lastSum_succ] at hfit'
  refine ⟨⟨lastSum L (vs ++ [v]), decide (L ≤ (vs ++ [v]).length), w.length,
    ⟨RingBuffer.layout L 8, (vs.length + 1) % L, L, L * 16⟩,
    Function.update w.cells (slot L (vs.length % L)) (some v)⟩, ?_, ?_⟩
  · simp only [WeightWindow.addWeight, h.get hL, Option.bind_some, h.sum, checked_of_isInt hfit',
      h.slide hL hfit, if_pos (slot_le hL _)]
  · refine ⟨rfl, rfl, h.length, ?_, ?_⟩
    · rw [List.length_append, List.length_singleton]
    · intro i u hu hle
      rw [List.length_append, List.length_singleton] at hle
      exact h.update hu hle

/-- **Every sequence of additions**, by induction over the weights that are still to come. -/
theorem Holds.exec (h : Holds L us w) (hL : 1 ≤ L) (hfits : Fits L (us ++ vs)) :
    ∃ w', Trace.exec WeightWindow.addWeight w vs = some w' ∧ Holds L (us ++ vs) w' := by
  induction vs generalizing us w with
  | nil => exact ⟨w, rfl, by rwa [List.append_nil]⟩
  | cons v vs ih =>
    rw [List.append_cons] at hfits
    obtain ⟨hfit, hfit'⟩ := hfits (us ++ [v]) (List.prefix_append _ _)
    obtain ⟨w₁, hadd, hholds⟩ := h.addWeight hL hfit hfit'
    obtain ⟨w', hexec, hholds'⟩ := ih hholds hfits
    refine ⟨w', Trace.exec_cons_eq_some.mpr ⟨w₁, hadd, hexec⟩, ?_⟩
    rwa [List.append_cons]

/-- **Every run keeps the window**, as long as the sums are `int`s. -/
theorem holds_run (hL : 1 ≤ L) (hsize : L * 16 < 2 ^ 64) (hfits : Fits L vs) :
    ∃ w, run L vs = some w ∧ Holds L vs w := by
  obtain ⟨w, hinit, hholds⟩ := holds_init hL hsize
  obtain ⟨w', hexec, hholds'⟩ := hholds.exec hL hfits
  exact ⟨w', by rw [run, hinit, Option.bind_some, hexec], hholds'⟩

/-- An addition that succeeds does not overflow, neither in the sum with the new weight nor in the
    difference with the oldest one. -/
theorem Holds.isInt (h : Holds L vs w) (hL : 1 ≤ L) (hadd : WeightWindow.addWeight w v = some w') :
    IsInt (lastSum L (vs ++ [v])) ∧ IsInt (lastSum (L + 1) (vs ++ [v])) := by
  rw [WeightWindow.addWeight, h.get hL, Option.bind_some, h.sum, Option.bind_eq_some_iff] at hadd
  obtain ⟨sum, hsum, hadd⟩ := hadd
  obtain ⟨hint, rfl⟩ := checked_eq_some.mp hsum
  obtain ⟨⟨sum', full⟩, hslide, -⟩ := Option.bind_eq_some_iff.mp hadd
  rw [lastSum_succ]
  refine ⟨?_, hint⟩
  by_cases hfull : L ≤ vs.length
  · obtain ⟨old, hold, hload⟩ := h.load hL hfull
    rw [WeightWindow.slide, h.isFull, if_pos (decide_eq_true hfull), hload, Option.bind_some,
      Option.map_eq_some_iff] at hslide
    obtain ⟨diff, hdiff, -⟩ := hslide
    rw [lastSum_of_le hfull hold]
    exact (checked_eq_some.mp hdiff).1
  · rw [lastSum_of_lt (Nat.lt_of_not_le hfull)]
    exact hint

/-- A run that has a result had no overflow, at none of its additions. -/
theorem fits_of_run (hL : 1 ≤ L) (hsize : L * 16 < 2 ^ 64) (hrun : run L vs = some w) :
    Fits L vs := by
  induction vs using List.reverseRecOn generalizing w with
  | nil =>
    intro us hus
    rw [List.prefix_nil.mp hus, lastSum_nil, lastSum_nil]
    decide
  | append_singleton vs v ih =>
    obtain ⟨w₀, hinit, hexec⟩ := Option.bind_eq_some_iff.mp hrun
    obtain ⟨w₁, hexec₁, hlast⟩ := Trace.exec_append_eq_some.mp hexec
    obtain ⟨w₂, hadd, -⟩ := Trace.exec_cons_eq_some.mp hlast
    have hrun₁ : run L vs = some w₁ := Option.bind_eq_some_iff.mpr ⟨w₀, hinit, hexec₁⟩
    have hfits := ih hrun₁
    obtain ⟨w', hrun', hholds⟩ := holds_run hL hsize hfits
    obtain rfl : w' = w₁ := Option.some.inj (hrun'.symm.trans hrun₁)
    intro us hus
    rcases List.prefix_concat_iff.mp hus with rfl | hus
    · exact hholds.isInt hL hadd
    · exact hfits us hus

/-! ### The average -/

/-- An average is an `int` if the sum is one; `tdiv` only makes it smaller. -/
theorem tdiv_isInt {z : Int} (hz : IsInt z) (L : Nat) : IsInt (z.tdiv L) := by
  obtain ⟨hlow, hhigh⟩ := hz
  rcases Int.le_total 0 z with hnonneg | hneg
  · have hle := Int.tdiv_le_self L hnonneg
    have hge := Int.tdiv_nonneg hnonneg (Int.natCast_nonneg L)
    exact ⟨by omega, by omega⟩
  · have hle := Int.tdiv_le_self (a := -z) L (by omega)
    have hge := Int.tdiv_nonneg (a := -z) (by omega) (Int.natCast_nonneg L)
    rw [Int.neg_tdiv] at hle hge
    exact ⟨by omega, by omega⟩

/-- Below `2 ^ 31` the average is the sum divided by the length. -/
theorem average_eq (hL : 1 ≤ L) (hlt : L < 2 ^ 31) (hlength : w.length = L) (hsum : IsInt w.sum) :
    average w = some (w.sum.tdiv L) := by
  rw [average, hlength, ofSize_of_lt hlt, if_neg (by omega), checked_of_isInt (tdiv_isInt hsum L)]

/-- From `2 ^ 31` on the converted length gives something else for the smallest or for the largest
    `int`. -/
theorem tdiv_ofSize_ne (hL : 2 ^ 31 ≤ L) (hne : ofSize L ≠ 0) :
    ∃ v : Int32, v.toInt.tdiv (ofSize L) ≠ v.toInt.tdiv L := by
  obtain ⟨hlow, hhigh⟩ := isInt_ofSize L
  by_cases hmin : ofSize L = -2 ^ 31
  · refine ⟨-2 ^ 31, fun heq => ?_⟩
    have hv : (-2 ^ 31 : Int32).toInt = -2 ^ 31 := by decide
    have hneg : (-2 ^ 31 : Int).tdiv L = -(2 ^ 31 : Int).tdiv L := Int.neg_tdiv _ _
    have hnonneg : 0 ≤ (2 ^ 31 : Int).tdiv L := Int.tdiv_nonneg (by decide) (Int.natCast_nonneg L)
    rw [hmin, hv, Int.tdiv_self (by decide)] at heq
    omega
  · refine ⟨2 ^ 31 - 1, fun heq => ?_⟩
    have hv : (2 ^ 31 - 1 : Int32).toInt = 2 ^ 31 - 1 := by decide
    have hzero : (2 ^ 31 - 1 : Int).tdiv L = 0 := Int.tdiv_eq_zero_of_lt (by decide) (by omega)
    have hsign : ((2 ^ 31 - 1 : Int).tdiv (ofSize L)).sign = (ofSize L).sign := by
      rw [Int.sign_tdiv, if_neg (by omega)]
      exact Int.one_mul _
    rw [hv, hzero] at heq
    rw [heq] at hsign
    exact hne (Int.sign_eq_zero_iff_zero.mp hsign.symm)

/-- An addition does not change the length of the window. -/
theorem length_addWeight (h : addWeight w v = some w') : w'.length = w.length := by
  simp only [addWeight, Option.bind_eq_some_iff, Option.ite_none_right_eq_some,
    Option.some.injEq] at h
  obtain ⟨-, -, -, -, -, -, -, rfl⟩ := h
  rfl

/-- A window has the length that it was made with. -/
theorem length_run (h : run L vs = some w) : w.length = L := by
  rw [run, Option.bind_eq_some_iff] at h
  obtain ⟨w₀, hinit, hexec⟩ := h
  refine Trace.exec_invariant (P := fun w => w.length = L) ?_ ?_ hexec
  · intro w v w' hw hadd
    rw [length_addWeight hadd, hw]
  · obtain ⟨r, -, rfl⟩ := Option.map_eq_some_iff.mp hinit
    rfl

/-- The sum of one weight is the weight. -/
theorem lastSum_singleton (hL : 1 ≤ L) (v : Int32) : lastSum L [v] = v.toInt := by
  have h : lastSum L ([] ++ [v]) = lastSum L [] + v.toInt := lastSum_of_lt hL v
  rwa [List.nil_append, lastSum_nil, Int.zero_add] at h

/-- One weight does not overflow. -/
theorem fits_singleton (hL : 1 ≤ L) (v : Int32) : Fits L [v] := by
  intro us hus
  rcases List.prefix_cons_iff.mp hus with rfl | ⟨us, rfl, hnil⟩
  · rw [lastSum_nil, lastSum_nil]
    decide
  · obtain rfl := List.prefix_nil.mp hnil
    rw [lastSum_singleton hL, lastSum_singleton (by omega)]
    exact ⟨isInt_toInt v, isInt_toInt v⟩

/-- **A length from `2 ^ 31` on** is not an `int`: the average of one weight is not the one of the
    window. -/
theorem not_slides (hL : 2 ^ 31 ≤ L) : ¬ Slides L := by
  intro hslides
  have hpos : 1 ≤ L := by omega
  have haverage : ∀ v : Int32, ofSize L ≠ 0 ∧ v.toInt.tdiv (ofSize L) = v.toInt.tdiv L := by
    intro v
    obtain ⟨w, hrun, hsum, -, haverage⟩ := hslides [v] (fits_singleton hpos v)
    rw [average, length_run hrun, Option.ite_none_left_eq_some, hsum,
      lastSum_singleton hpos] at haverage
    exact ⟨haverage.1, (checked_eq_some.mp haverage.2).2⟩
  obtain ⟨v, hv⟩ := tdiv_ofSize_ne hL (haverage 0).1
  exact hv (haverage v).2

/-- **The sliding window** of every length.  The second part says that the assumption on the sums is
    no more than that no addition overflows. -/
theorem window_slides (hL : 1 ≤ L) :
    (Slides L ↔ L < 2 ^ 31) ∧
      (L * 16 < 2 ^ 64 → ∀ vs, (∃ w, run L vs = some w) ↔ Fits L vs) := by
  refine ⟨⟨?_, ?_⟩, ?_⟩
  · intro h
    by_contra hlt
    exact not_slides (by omega) h
  · intro hlt vs hfits
    obtain ⟨w, hrun, hholds⟩ := holds_run hL (by omega) hfits
    have hsum : IsInt w.sum := by
      rw [hholds.sum]
      exact (hfits vs (List.prefix_refl vs)).1
    refine ⟨w, hrun, hholds.sum, ?_, ?_⟩
    · rw [hholds.isFull, decide_eq_true_iff]
    · rw [average_eq hL hlt hholds.length hsum, hholds.sum]
  · intro hsize vs
    constructor
    · rintro ⟨w, hrun⟩
      exact fits_of_run hL hsize hrun
    · intro hfits
      obtain ⟨w, hrun, -⟩ := holds_run hL hsize hfits
      exact ⟨w, hrun⟩

/-- A window of three weights. -/
theorem window_slides_three : Slides 3 ∧ ∃ w, run 3 [7] = some w :=
  ⟨(window_slides (by decide)).1.mpr (by decide),
    ((window_slides (by decide)).2 (by decide) [7]).mpr (fits_singleton (by decide) 7)⟩

/-- A window of length `2 ^ 32`: after the weight `1` the average divides by zero. -/
theorem window_divides_by_zero :
    Fits (2 ^ 32) [1] ∧ ∃ w, run (2 ^ 32) [1] = some w ∧ w.sum = 1 ∧ average w = none := by
  have hfits : Fits (2 ^ 32) [1] := fits_singleton (by decide) 1
  refine ⟨hfits, ?_⟩
  obtain ⟨w, hrun, hholds⟩ := holds_run (by decide) (by decide) hfits
  refine ⟨w, hrun, ?_, ?_⟩
  · rw [hholds.sum, lastSum_singleton (by decide)]
    decide
  · rw [average, hholds.length, if_pos (by decide)]

end WeightWindow

end CPlayground
