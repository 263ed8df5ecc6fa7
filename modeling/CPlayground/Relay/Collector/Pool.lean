import CPlayground.Lib.Trace
import Mathlib.Data.List.Perm.Basic
import Mathlib.Data.List.Range
import Mathlib.Data.UInt

namespace CPlayground.Relay

open CPlayground.Trace

/-!
# `sun::Pool`: blocks of one size

A pool allocates room for `N` blocks at once and keeps the addresses of the free ones on a stack.
`acquire` takes the top of the stack, and allocates a block of its own when the stack is empty; the
pointer that it returns carries its deleter, which pushes a block of the pool back and frees the
others.  Both are done under a spin lock, so each is one step.

* `Pool.block_spec` — `block_` is `BLOCK` rounded up to the size of a pointer.
* `Pool.Inv` — the blocks of the pool are on the stack or out, and the others are apart from them.
* `Pool.blocks_apart` — no two pointers that are out share a byte, and no block of the pool is lost.
-/

namespace Pool

/-- The template parameters, with the assertions of the constructor. -/
structure Config where
  N : Nat
  BLOCK : UInt64
  maxN : N ≤ 1024
  maxBlock : BLOCK ≤ 1024 * 1024

/-- `block_`, as the constructor computes it. -/
def block (BLOCK : UInt64) : UInt64 :=
  let MASK : UInt64 := 8 - 1
  if BLOCK &&& MASK ≠ 0 then (BLOCK &&& ~~~MASK) + 8 else BLOCK

/-- The bits in a mask and the others. -/
theorem and_add_and_not (x m : UInt64) : (x &&& m) + (x &&& ~~~m) = x := by
  apply UInt64.toBitVec_inj.mp
  rw [UInt64.toBitVec_add, BitVec.add_eq_or_of_and_eq_zero]
  · simp only [UInt64.toBitVec_and, UInt64.toBitVec_not]
    ext i
    simp
    cases x.toBitVec[i] <;> simp
  · simp only [UInt64.toBitVec_and, UInt64.toBitVec_not]
    ext i
    simp
    grind

/-- The lower bits of a size. -/
theorem toNat_and_mask (x : UInt64) : (x &&& (8 - 1)).toNat = x.toNat % 8 := by
  rw [UInt64.toNat_and]
  exact Nat.and_two_pow_sub_one_eq_mod x.toNat 3

/-- The size without them. -/
theorem toNat_and_not_mask (x : UInt64) :
    (x &&& ~~~(8 - 1)).toNat = x.toNat - x.toNat % 8 := by
  have hsub : x &&& ~~~(8 - 1) = x - (x &&& (8 - 1)) := by
    rw [eq_sub_iff_add_eq']
    exact and_add_and_not x (8 - 1)
  rw [hsub, UInt64.toNat_sub_of_le, toNat_and_mask]
  rw [UInt64.le_iff_toNat_le, toNat_and_mask]
  exact Nat.mod_le _ _

/-- `BLOCK` rounded up to a multiple of the size of a pointer; it is not so large that the sum wraps
    around. -/
theorem block_spec (c : Config) :
    c.BLOCK.toNat ≤ (block c.BLOCK).toNat ∧ (block c.BLOCK).toNat < c.BLOCK.toNat + 8 ∧
      (block c.BLOCK).toNat % 8 = 0 := by
  have hmax : c.BLOCK.toNat ≤ 1024 * 1024 := UInt64.le_iff_toNat_le.mp c.maxBlock
  have hlow := toNat_and_mask c.BLOCK
  unfold block
  dsimp only
  split
  · have hne : (c.BLOCK &&& (8 - 1)).toNat ≠ 0 := fun h => ‹_ ≠ _› (UInt64.toNat_inj.mp h)
    have height : (8 : UInt64).toNat = 8 := rfl
    rw [UInt64.toNat_add, toNat_and_not_mask, height]
    omega
  · rename_i hzero
    rw [not_not] at hzero
    rw [hzero] at hlow
    have hmod : c.BLOCK.toNat % 8 = 0 := hlow.symm
    omega

/-- The size of a block. -/
def size (c : Config) : Nat := (block c.BLOCK).toNat

/-- The addresses that the constructor puts on the stack. -/
def blocks (c : Config) (base : Nat) : List Nat := (List.range c.N).map fun i => base + i * size c

end Pool

/-- A pool whose room `data_` is at `base`, and the pointers that are out.  The back of `stack_` is
    the head of the list. -/
structure Pool where
  base : Nat
  stack : List Nat
  /-- The blocks of the pool that are out. -/
  taken : List Nat
  /-- The blocks that were allocated one by one and are out. -/
  heap : List Nat
  deriving DecidableEq

namespace Pool

/-- The constructor, with what `malloc` returns. -/
def new (c : Config) (base : Nat) : Pool := ⟨base, (blocks c base).reverse, [], []⟩

/-- Blocks at `v` and `w` have no byte in common. -/
def Apart (b v w : Nat) : Prop := v + b ≤ w ∨ w + b ≤ v

instance (b v w : Nat) : Decidable (Apart b v w) := inferInstanceAs (Decidable (_ ∨ _))

/-- The block at `v` is outside the room of the pool. -/
def Outside (c : Config) (base v : Nat) : Prop := v + size c ≤ base ∨ base + c.N * size c ≤ v

instance (c : Config) (base v : Nat) : Decidable (Outside c base v) :=
  inferInstanceAs (Decidable (_ ∨ _))

/-- A call of `acquire`, or of the deleter of a pointer. -/
inductive Act where
  /-- `acquire`; `malloc` is what `malloc` returns if it is called. -/
  | acquire (malloc : Option Nat)
  | giveBack (v : Nat)
  | free (v : Nat)

/-- One step.  `malloc` returns null or memory that is not in use. -/
def step (c : Config) (s : Pool) : Act → Option Pool
  | .acquire malloc =>
    match s.stack with
    | v :: stack => some { s with stack := stack, taken := v :: s.taken }
    | []         =>
      match malloc with
      | none   => some s
      | some v =>
        if Outside c s.base v ∧ ∀ w ∈ s.heap, Apart (size c) v w then
          some { s with heap := v :: s.heap }
        else none
  | .giveBack v =>
    if v ∈ s.taken then some { s with stack := v :: s.stack, taken := s.taken.erase v } else none
  | .free v => if v ∈ s.heap then some { s with heap := s.heap.erase v } else none

variable {c : Config} {s s' : Pool} {base : Nat}

/-- The blocks of the pool are on the stack or out, and the other blocks that are out are apart from
    the room of the pool and from each other. -/
structure Inv (c : Config) (base : Nat) (s : Pool) : Prop where
  room : s.base = base
  pool : (s.stack ++ s.taken).Perm (blocks c base)
  outside : ∀ v ∈ s.heap, Outside c base v
  apart : s.heap.Pairwise (Apart (size c))

/-- All blocks of the pool are on the stack. -/
theorem inv_new : Inv c base (new c base) where
  room := rfl
  pool := by
    rw [new, List.append_nil]
    exact List.reverse_perm _
  outside := fun _ h => absurd h List.not_mem_nil
  apart := .nil

/-- **One step keeps the blocks apart**: a block of the pool goes from the stack to its user and
    back, and memory from `malloc` is not in use anywhere else. -/
theorem inv_step {a : Act} (h : Inv c base s) (hst : step c s a = some s') : Inv c base s' := by
  cases a with
  | acquire malloc =>
    simp only [step] at hst
    split at hst
    -- a block from the top of the stack, or memory from `malloc`, if there is any
    · rename_i v stack hstack
      cases hst
      have hpool := h.pool
      rw [hstack] at hpool
      exact ⟨h.room, List.perm_middle.trans hpool, h.outside, h.apart⟩
    · split at hst
      · cases hst
        exact h
      -- it overlaps neither the room of the pool nor what is out
      · simp only [Option.ite_none_right_eq_some, Option.some.injEq] at hst
        obtain ⟨⟨houtside, hapart⟩, rfl⟩ := hst
        rw [h.room] at houtside
        exact ⟨h.room, h.pool, List.forall_mem_cons.mpr ⟨houtside, h.outside⟩,
          List.pairwise_cons.mpr ⟨hapart, h.apart⟩⟩
  | giveBack v =>
    simp only [step, Option.ite_none_right_eq_some, Option.some.injEq] at hst
    obtain ⟨hv, rfl⟩ := hst
    refine ⟨h.room, .trans ?_ h.pool, h.outside, h.apart⟩
    exact List.perm_middle.symm.trans ((List.perm_cons_erase hv).symm.append_left _)
  | free v =>
    simp only [step, Option.ite_none_right_eq_some, Option.some.injEq] at hst
    obtain ⟨-, rfl⟩ := hst
    exact ⟨h.room, h.pool, fun w hw => h.outside w (List.mem_of_mem_erase hw),
      h.apart.sublist List.erase_sublist⟩

/-! ### Blocks that are out are apart -/

/-- It does not matter which of two blocks comes first. -/
theorem apart_symm {b v w : Nat} (h : Apart b v w) : Apart b w v := h.symm

/-- The blocks of the pool lie one behind the other. -/
theorem pairwise_blocks (c : Config) (base : Nat) : (blocks c base).Pairwise (Apart (size c)) := by
  rw [blocks, List.pairwise_map]
  refine List.pairwise_lt_range.imp fun {i j} hlt => .inl ?_
  have hmul := Nat.mul_le_mul_right (size c) (Nat.succ_le_of_lt hlt)
  rw [Nat.succ_mul] at hmul
  omega

/-- A block of the pool is in its room, and aligned if the room is. -/
theorem mem_blocks {v : Nat} (hv : v ∈ blocks c base) :
    base ≤ v ∧ v + size c ≤ base + c.N * size c ∧ v % 8 = base % 8 := by
  obtain ⟨i, hi, rfl⟩ := List.mem_map.mp hv
  have hmul := Nat.mul_le_mul_right (size c) (Nat.succ_le_of_lt (List.mem_range.mp hi))
  rw [Nat.succ_mul] at hmul
  have hmod : i * size c % 8 = 0 := by
    rw [Nat.mul_mod, show size c % 8 = 0 from (block_spec c).2.2, Nat.mul_zero, Nat.zero_mod]
  omega

/-- **Blocks that are out are apart.**  In every run, no two of the pointers that are out, from
    the pool or allocated one by one, share one of the at least `BLOCK` bytes behind them, those
    of the pool are aligned as its room is, and the blocks of the pool are on its stack or out,
    each of them once. -/
theorem blocks_apart (c : Config) (base : Nat) (acts : List Act) (s : Pool)
    (hrun : exec (step c) (new c base) acts = some s) :
    c.BLOCK.toNat ≤ size c ∧ (s.taken ++ s.heap).Pairwise (Apart (size c)) ∧
      (∀ v ∈ s.taken, v % 8 = base % 8) ∧ (s.stack ++ s.taken).Perm (blocks c base) := by
  have hinv : Inv c base s := exec_invariant (fun _ _ _ h hst => inv_step h hst) inv_new hrun
  have hmem : ∀ v ∈ s.taken, v ∈ blocks c base := fun v hv =>
    hinv.pool.subset (List.mem_append_right _ hv)
  refine ⟨(block_spec c).1, ?_, fun v hv => (mem_blocks (hmem v hv)).2.2, hinv.pool⟩
  have htaken : (s.stack ++ s.taken).Pairwise (Apart (size c)) :=
    (hinv.pool.pairwise_iff apart_symm).mpr (pairwise_blocks c base)
  refine List.pairwise_append.mpr ⟨(List.pairwise_append.mp htaken).2.1, hinv.apart, ?_⟩
  intro v hv w hw
  obtain ⟨hlow, hhigh, -⟩ := mem_blocks (hmem v hv)
  rcases hinv.outside w hw with hout | hout
  · exact .inr (by omega)
  · exact .inl (by omega)

/-- A pool of two blocks for five bytes each: the third pointer is allocated, and a block that is
    given back is the next one out. -/
def twoBlocks : Config := ⟨2, 5, by decide, by decide⟩

/-- Both blocks of the pool are out, and the third pointer is a block of its own. -/
theorem blocks_apart_twoBlocks : ∃ s,
    exec (step twoBlocks) (new twoBlocks 64)
      [.acquire none, .acquire none, .acquire (some 80), .giveBack 72, .acquire none] = some s ∧
    s.taken = [72, 64] ∧ s.heap = [80] ∧ (s.taken ++ s.heap).Pairwise (Apart (size twoBlocks)) := by
  obtain ⟨s, hrun, htest⟩ := exists_of_exec_any
    (show (exec (step twoBlocks) (new twoBlocks 64)
      [.acquire none, .acquire none, .acquire (some 80), .giveBack 72, .acquire none]).any
      (fun s => s.taken = [72, 64] ∧ s.heap = [80]) = true by decide +kernel)
  obtain ⟨htaken, hheap⟩ := of_decide_eq_true htest
  exact ⟨s, hrun, htaken, hheap, (blocks_apart twoBlocks 64 _ s hrun).2.1⟩

end Pool

end CPlayground.Relay
