import Mathlib.Data.List.Basic

namespace CPlayground.Monitor

/-!
# `TimeWheel`

`N` slots in a ring and the index of the current one.  `tick` steps back by one slot, which thereby
becomes the current one, and hands out what it held.

* `TimeWheel.ages` — the slots in the order of their ages: the current one first, then the one that
  was current before the last tick, and so on.  In these terms a tick takes the oldest slot away
  and puts an empty one in front (`ages_tick`), and a push adds to the first one (`ages_push`).
* `TimeWheel.run` — a history of pushes and ticks; `tick_delay` says that its ticks return what was
  pushed `N` ticks before.
* `TimeWheel.copies` — how many copies of an item the wheel holds.
-/

/-- `TimeWheel`. -/
structure TimeWheel (α : Type*) (N : Nat) where
  wheel : List (List α)
  i : Nat
  size : wheel.length = N
  lt : i < N

namespace TimeWheel

variable {α : Type*} {N : Nat}

/-- The constructor; the source asserts `N > 3 && N < 100`. -/
def new (h : 0 < N) : TimeWheel α N :=
  ⟨List.replicate N [], N - 1, List.length_replicate, Nat.sub_one_lt_of_lt h⟩

/-- The index after a tick. -/
def prior (N i : Nat) : Nat := (if i = 0 then N else i) - 1

/-- The slot before one of the ring is in the ring. -/
theorem prior_lt {i : Nat} (h : i < N) : prior N i < N := by
  rw [prior]
  split <;> omega

/-- `tick`: the slot that is handed out and the wheel after it. -/
def tick (w : TimeWheel α N) : List α × TimeWheel α N :=
  (w.wheel.getD (prior N w.i) [],
    ⟨w.wheel.set (prior N w.i) [], prior N w.i, List.length_set.trans w.size, prior_lt w.lt⟩)

/-- `current()`. -/
def current (w : TimeWheel α N) : List α := w.wheel.getD w.i []

/-- `current().push_back(x)`. -/
def push (w : TimeWheel α N) (x : α) : TimeWheel α N :=
  ⟨w.wheel.set w.i (w.current ++ [x]), w.i, List.length_set.trans w.size, w.lt⟩

/-! ### Slots by age -/

/-- The slots, the current one first, then the one that was current a tick ago, and so on. -/
def ages (w : TimeWheel α N) : List (List α) := w.wheel.drop w.i ++ w.wheel.take w.i

/-- There are as many ages as slots. -/
theorem length_ages (w : TimeWheel α N) : w.ages.length = N := by
  rw [ages, List.length_append, List.length_drop, List.length_take, w.size]
  have hlt := w.lt
  omega

/-- A list, split at one of its places. -/
theorem exists_split {l : List (List α)} {i : Nat} (h : i < l.length) :
    ∃ before slot after, l = before ++ slot :: after ∧ before.length = i := by
  refine ⟨l.take i, l[i], l.drop (i + 1), ?_, List.length_take_of_le (Nat.le_of_lt h)⟩
  rw [List.getElem_cons_drop, List.take_append_drop]

/-- A tick takes the oldest slot away and puts an empty one in front; the others are one tick
    older. -/
theorem ages_tick (w : TimeWheel α N) :
    ∃ older, w.ages = older ++ [w.tick.1] ∧ w.tick.2.ages = [] :: older := by
  obtain ⟨before, slot, after, hwheel, hlen⟩ :=
    exists_split (l := w.wheel) (i := prior N w.i) (w.size.symm ▸ prior_lt w.lt)
  have hslot : w.tick.1 = slot := by
    show w.wheel.getD (prior N w.i) [] = slot
    rw [hwheel, ← hlen]
    simp
  refine ⟨after ++ before, ?_, ?_⟩
  · rw [hslot, ages]
    by_cases hi : w.i = 0
    · -- the slot is the last one of the array
      have hafter : after = [] := by
        have hsize := w.size
        rw [hwheel, List.length_append, List.length_cons, hlen, prior, if_pos hi] at hsize
        exact List.length_eq_zero_iff.mp (by omega)
      simp [hi, hwheel, hafter]
    · have hnext : w.i = before.length + 1 := by
        rw [hlen, prior, if_neg hi]
        omega
      have htake : before.take (before.length + 1) = before :=
        List.take_of_length_le (Nat.le_succ _)
      simp [hnext, hwheel, List.take_append, htake]
  · show (w.wheel.set (prior N w.i) []).drop (prior N w.i) ++
      (w.wheel.set (prior N w.i) []).take (prior N w.i) = _
    rw [hwheel, ← hlen]
    simp

/-- A push adds to the first slot. -/
theorem ages_push (w : TimeWheel α N) (x : α) :
    ∃ older, w.ages = w.current :: older ∧ (w.push x).ages = (w.current ++ [x]) :: older := by
  obtain ⟨before, slot, after, hwheel, hlen⟩ :=
    exists_split (l := w.wheel) (i := w.i) (w.size.symm ▸ w.lt)
  have hslot : w.current = slot := by
    rw [current, hwheel, ← hlen]
    simp
  refine ⟨after ++ before, ?_, ?_⟩
  · rw [hslot, ages, hwheel, ← hlen]
    simp
  · show (w.wheel.set w.i (w.current ++ [x])).drop w.i ++
      (w.wheel.set w.i (w.current ++ [x])).take w.i = _
    rw [hslot, hwheel, ← hlen]
    simp

/-- Before the first push, all slots are empty. -/
theorem ages_new (h : 0 < N) : ∀ slot ∈ (new h : TimeWheel α N).ages, slot = [] := by
  intro slot hmem
  rcases List.mem_append.mp hmem with hmem | hmem
  · exact List.eq_of_mem_replicate (List.mem_of_mem_drop hmem)
  · exact List.eq_of_mem_replicate (List.mem_of_mem_take hmem)

/-! ### Histories -/

/-- What is done with a wheel: `current().push_back(x)` and `tick()`. -/
inductive Op (α : Type*) where
  | push (x : α)
  | tick

/-- A history: the slots that its ticks return one after another, and the wheel after it. -/
def run (w : TimeWheel α N) : List (Op α) → List (List α) × TimeWheel α N
  | []             => ([], w)
  | .push x :: ops => (w.push x).run ops
  | .tick :: ops   => (w.tick.1 :: (w.tick.2.run ops).1, (w.tick.2.run ops).2)

/-- The number of ticks. -/
def ticks : List (Op α) → Nat
  | []             => 0
  | .push _ :: ops => ticks ops
  | .tick :: ops   => ticks ops + 1

/-- The items that are pushed between two ticks, before the first one and after the last one. -/
def batches : List (Op α) → List (List α)
  | []             => [[]]
  | .push x :: ops => (batches ops).modifyHead (x :: ·)
  | .tick :: ops   => [] :: batches ops

/-- The items that are pushed after `k` ticks and before the next one. -/
def pushedAfter (k : Nat) (ops : List (Op α)) : List α := (batches ops).getD k []

/-- There is one batch more than ticks. -/
theorem length_batches (ops : List (Op α)) : (batches ops).length = ticks ops + 1 := by
  induction ops with
  | nil => rfl
  | cons op ops ih =>
    cases op with
    | push x => rw [batches, List.length_modifyHead, ih, ticks]
    | tick => rw [batches, List.length_cons, ih, ticks]

/-- There is always a batch: the one before the first tick. -/
theorem exists_batches (ops : List (Op α)) : ∃ b bs, batches ops = b :: bs :=
  List.exists_cons_of_length_eq_add_one (length_batches ops)

/-- Nothing was pushed. -/
theorem pushedAfter_nil (k : Nat) : pushedAfter k ([] : List (Op α)) = [] := by
  cases k <;> rfl

/-- A push belongs to the batch before the first tick. -/
theorem pushedAfter_push (x : α) (k : Nat) (ops : List (Op α)) :
    pushedAfter k (.push x :: ops)
      = if k = 0 then x :: pushedAfter k ops else pushedAfter k ops := by
  obtain ⟨b, bs, hb⟩ := exists_batches ops
  rw [pushedAfter, pushedAfter, batches, hb]
  cases k with
  | zero => rfl
  | succ k => rfl

/-- A tick begins the next batch. -/
theorem pushedAfter_tick (k : Nat) (ops : List (Op α)) :
    pushedAfter (k + 1) (.tick :: ops) = pushedAfter k ops := rfl

/-- An item is pushed after `k` ticks exactly if the history has `k` ticks before a push of it. -/
theorem mem_pushedAfter {x : α} {k : Nat} {ops : List (Op α)} :
    x ∈ pushedAfter k ops ↔ ∃ pre post, ops = pre ++ .push x :: post ∧ k = ticks pre := by
  induction ops generalizing k with
  | nil => simp [pushedAfter_nil]
  | cons op ops ih =>
    -- the push is the first operation, or it is one of the others
    have hcons : (∃ pre post, op :: ops = pre ++ .push x :: post ∧ k = ticks pre) ↔
        (op = .push x ∧ k = 0) ∨
          ∃ pre post, ops = pre ++ .push x :: post ∧ k = ticks (op :: pre) := by
      constructor
      · rintro ⟨pre, post, heq, hk⟩
        rcases List.cons_eq_append_iff.mp heq with ⟨rfl, hpush⟩ | ⟨pre, rfl, hops⟩
        · exact .inl ⟨(List.cons.inj hpush).1.symm, hk⟩
        · exact .inr ⟨pre, post, hops, hk⟩
      · rintro (⟨rfl, hk⟩ | ⟨pre, post, rfl, hk⟩)
        · exact ⟨[], ops, rfl, hk⟩
        · exact ⟨op :: pre, post, rfl, hk⟩
    rw [hcons]
    cases op with
    | push y =>
      rw [pushedAfter_push]
      simp only [Op.push.injEq, ticks]
      rw [← ih]
      split
      · next hk => simp [hk, eq_comm]
      · next hk => simp [hk]
    | tick =>
      simp only [reduceCtorEq, false_and, false_or, ticks]
      cases k with
      | zero => simp [pushedAfter, batches]
      | succ k => simp only [pushedAfter_tick, Nat.add_right_cancel_iff, ih]

/-- The slots of a wheel, from the oldest one on, and then what the history makes current. -/
theorem run_eq {w : TimeWheel α N} {cur : List α} {older : List (List α)}
    (hages : w.ages = cur :: older) (ops : List (Op α)) :
    (w.run ops).1
      = (older.reverse ++ (batches ops).modifyHead (cur ++ ·)).take (ticks ops) := by
  induction ops generalizing w cur older with
  | nil => simp [run, ticks]
  | cons op ops ih =>
    cases op with
    | push x =>
      obtain ⟨older', hages', hpush⟩ := w.ages_push x
      obtain ⟨hcur, rfl⟩ := List.cons.inj (hages.symm.trans hages')
      rw [← hcur] at hpush
      rw [run, ih hpush, batches, ticks, List.modifyHead_modifyHead]
      congr
      funext b
      simp
    | tick =>
      obtain ⟨older', hages', htick⟩ := w.ages_tick
      -- the slot that is current before the tick is the one that is filled before the next ones
      have hrev : older.reverse ++ [cur] = w.tick.1 :: older'.reverse := by
        rw [← List.reverse_cons, ← hages, hages', List.reverse_append, List.reverse_singleton,
          List.singleton_append]
      have hrest : older.reverse ++ (batches (.tick :: ops)).modifyHead (cur ++ ·)
          = w.tick.1 :: (older'.reverse ++ batches ops) := by
        rw [batches, List.modifyHead_cons, List.append_nil, ← List.singleton_append,
          ← List.append_assoc, hrev, List.cons_append]
      have hhead : (batches ops).modifyHead ([] ++ ·) = batches ops :=
        congrFun List.modifyHead_id _
      rw [run, ih htick, hrest, hhead, ticks, List.take_succ_cons]

/-- A new wheel has empty slots of all ages. -/
theorem ages_new_eq (h : 0 < N) :
    (new h : TimeWheel α N).ages = [] :: List.replicate (N - 1) [] := by
  have hlen := length_ages (new h : TimeWheel α N)
  rw [List.eq_replicate_of_mem (ages_new h), hlen, ← List.replicate_succ, Nat.sub_add_cancel h]

/-- The results of the ticks of a history: the first `N - 1` are empty, and the later ones have what
    was pushed `N` ticks before. -/
theorem run_new_eq (h : 0 < N) (ops : List (Op α)) :
    ((new h).run ops).1 = ((List.range (ticks ops)).map fun j =>
      if j + 1 < N then [] else pushedAfter (j + 1 - N) ops) := by
  have hhead : (batches ops).modifyHead ([] ++ ·) = batches ops := congrFun List.modifyHead_id _
  have hlen := length_batches ops
  rw [run_eq (ages_new_eq h) ops, hhead, List.reverse_replicate]
  apply List.ext_getElem
  · simp
    omega
  · intro j hj _
    rw [List.getElem_take, List.getElem_map, List.getElem_range]
    split
    · next hlt => rw [List.getElem_append_left (by simp; omega), List.getElem_replicate]
    · next hge =>
      have hlt : j < ticks ops := by
        simp at hj
        omega
      rw [List.getElem_append_right (by simp; omega), pushedAfter, List.getD_eq_getElem?_getD,
        List.getElem?_eq_getElem (by omega), Option.getD_some]
      congr 1
      simp
      omega

/-- **The delay.**  The ticks of a history return what was pushed `N` ticks before, in the order of
    the pushes, and nothing as long as there have not been `N` ticks: an item is returned by a tick
    exactly if it was pushed after all but the last `N` of the ticks up to that one. -/
theorem tick_delay (h : 0 < N) (ops : List (Op α)) :
    ((new h).run ops).1 = ((List.range (ticks ops)).map fun j =>
        if j + 1 < N then [] else pushedAfter (j + 1 - N) ops) ∧
      ∀ j slot, ((new h).run ops).1[j]? = some slot → ∀ x,
        (x ∈ slot ↔ ∃ pre post, ops = pre ++ .push x :: post ∧ j + 1 = ticks pre + N) := by
  refine ⟨run_new_eq h ops, fun j slot hslot x => ?_⟩
  rw [run_new_eq h ops, List.getElem?_map, Option.map_eq_some_iff] at hslot
  obtain ⟨i, hi, rfl⟩ := hslot
  obtain ⟨-, rfl⟩ := List.getElem?_eq_some_iff.mp hi
  rw [List.getElem_range]
  split
  · next hlt =>
    -- too few ticks for any item
    refine iff_of_false List.not_mem_nil ?_
    rintro ⟨pre, post, -, hj⟩
    omega
  · next hge =>
    simp only [mem_pushedAfter, Nat.sub_eq_iff_eq_add (Nat.not_lt.mp hge)]

/-- Four slots, and an item before each of the first three ticks. -/
theorem tick_delay_four : ((new (by decide : 0 < 4)).run
      [.push 7, .tick, .push 8, .tick, .push 9, .tick, .tick, .tick]).1
    = [[], [], [], [7], [8]] :=
  (tick_delay (by decide) _).1.trans (by decide)

/-! ### Copies of an item -/

variable [DecidableEq α] {x y : α}

/-- The number of copies of `x` in the wheel. -/
def copies (w : TimeWheel α N) (x : α) : Nat := w.wheel.flatten.count x

/-- The copies do not depend on the place of the current slot. -/
theorem copies_eq (w : TimeWheel α N) (x : α) : w.copies x = w.ages.flatten.count x := by
  have hperm : w.wheel.Perm w.ages := by
    rw [ages]
    exact (List.take_append_drop w.i w.wheel ▸ List.perm_append_comm :)
  exact hperm.flatten.count_eq x

/-- The copies that a tick hands out are not in the wheel any more. -/
theorem copies_tick (w : TimeWheel α N) (x : α) :
    w.copies x = w.tick.1.count x + w.tick.2.copies x := by
  obtain ⟨older, hages, htick⟩ := w.ages_tick
  rw [copies_eq, copies_eq, hages, htick]
  simp only [List.flatten_append, List.flatten_cons, List.flatten_nil, List.count_append,
    List.count_nil]
  omega

/-- A push adds one copy of its item. -/
theorem copies_push (w : TimeWheel α N) (x y : α) :
    (w.push y).copies x = w.copies x + if y = x then 1 else 0 := by
  obtain ⟨older, hages, hpush⟩ := w.ages_push y
  rw [copies_eq, copies_eq, hages, hpush]
  simp only [List.flatten_cons, List.count_append, List.count_singleton, beq_iff_eq]
  omega

/-- An item has a copy exactly if it is in a slot. -/
theorem copies_pos {w : TimeWheel α N} : 0 < w.copies x ↔ ∃ slot ∈ w.ages, x ∈ slot := by
  rw [copies_eq, List.count_pos_iff, List.mem_flatten]

end TimeWheel

end CPlayground.Monitor
