import CPlayground.Lib.Trace

namespace CPlayground

open CPlayground.Trace

/-!
# A condition variable

Data under a mutex, and the threads that wait for a condition on it.  A call takes the mutex and
does its work if the condition holds; otherwise it gives the mutex back and is blocked until it is
woken, by a notification or for no reason.  A woken thread takes the mutex and looks again.

* `Condvar.enter`, `Condvar.resume` — a call, and the second look of a woken thread.
* `Condvar.wake`, `Condvar.notifyOne`, `Condvar.notifyAll` — one blocked thread is woken, or all.
* `Condvar.Covered` — threads are blocked only beside as many woken ones as the data can serve;
  calls, second looks, spurious wake-ups and notifications preserve it (`covered_*`).
* `Condvar.exists_resumeAll` — the woken threads can all take their second look.
-/

/-- Data under a mutex with a condition variable.  `woken` are the threads that were woken and have
    not taken the mutex yet. -/
structure Condvar (σ ι : Type*) where
  data : σ
  blocked : List ι
  woken : List ι
  deriving DecidableEq

namespace Condvar

variable {σ ι : Type*} [DecidableEq ι]

/-- A thread takes the mutex.  `call i` is what its call does with the data, `none` while the
    condition does not hold. -/
def enter (call : ι → σ → Option σ) (m : Condvar σ ι) (i : ι) : Condvar σ ι :=
  match call i m.data with
  | some d => { m with data := d }
  | none   => { m with blocked := i :: m.blocked }

/-- A woken thread takes the mutex again. -/
def resume (call : ι → σ → Option σ) (m : Condvar σ ι) (i : ι) : Option (Condvar σ ι) :=
  if i ∈ m.woken then some (enter call { m with woken := m.woken.erase i } i) else none

/-- A blocked thread is woken. -/
def wake (m : Condvar σ ι) (i : ι) : Option (Condvar σ ι) :=
  if i ∈ m.blocked then
    some { m with blocked := m.blocked.erase i, woken := i :: m.woken }
  else none

/-- `notify_one` wakes one of the blocked threads, which one is open, if there is one. -/
def notifyOne (m : Condvar σ ι) : Option ι → Option (Condvar σ ι)
  | some i => m.wake i
  | none   => if m.blocked = [] then some m else none

/-- `notify_all`. -/
def notifyAll (m : Condvar σ ι) : Condvar σ ι :=
  { m with blocked := [], woken := m.blocked ++ m.woken }

variable {call : ι → σ → Option σ} {m m' : Condvar σ ι} {i : ι}

omit [DecidableEq ι] in
/-- Taking the mutex: the call is served, or its thread is blocked. -/
theorem enter_cases (call : ι → σ → Option σ) (m : Condvar σ ι) (i : ι) :
    (∃ d, call i m.data = some d ∧ enter call m i = { m with data := d }) ∨
    (call i m.data = none ∧ enter call m i = { m with blocked := i :: m.blocked }) := by
  unfold enter
  cases call i m.data with
  | none => exact .inr ⟨rfl, rfl⟩
  | some d => exact .inl ⟨d, rfl, rfl⟩

/-- A woken thread takes the mutex, and looks at its condition again. -/
theorem resume_eq_some : resume call m i = some m' ↔
    i ∈ m.woken ∧ m' = enter call { m with woken := m.woken.erase i } i := by
  simp [resume, eq_comm]

/-- Only a thread that is blocked can be woken. -/
theorem wake_eq_some : m.wake i = some m' ↔
    i ∈ m.blocked ∧ m' = { m with blocked := m.blocked.erase i, woken := i :: m.woken } := by
  simp [wake, eq_comm]

/-! ### Enough threads are woken -/

/-- `serves d n` says that `n` threads are enough to take what there is in `d`: a call that blocks
    finds nothing to take, one that returns takes as much as one thread can, and more threads do no
    harm. -/
structure Serves (call : ι → σ → Option σ) (serves : σ → Nat → Prop) : Prop where
  none : ∀ {i d n}, call i d = none → serves d n
  some : ∀ {i d d' n}, call i d = some d' → serves d (n + 1) → serves d' n
  mono : ∀ {d n}, serves d n → serves d (n + 1)

variable {serves : σ → Nat → Prop}

/-- Threads are blocked only if the woken ones are enough. -/
def Covered (serves : σ → Nat → Prop) (m : Condvar σ ι) : Prop :=
  m.blocked ≠ [] → serves m.data m.woken.length

omit [DecidableEq ι] in
/-- Where no thread is blocked, none is forgotten. -/
theorem covered_of_blocked_eq_nil (h : m.blocked = []) : Covered serves m :=
  fun hne => absurd h hne

variable (hserves : Serves call serves)
include hserves

omit [DecidableEq ι] in
/-- A thread that finds its condition false blocks; it is served by nothing at this time. -/
theorem covered_enter (h : Covered serves m) (i : ι) : Covered serves (enter call m i) := by
  obtain ⟨d, hcall, heq⟩ | ⟨hcall, heq⟩ := enter_cases call m i
  · rw [heq]
    exact fun hne => hserves.some hcall (hserves.mono (h hne))
  · rw [heq]
    exact fun _ => hserves.none hcall

/-- So does a thread that was woken for nothing: it looks again, and either is served or blocks once
    more. -/
theorem covered_resume (h : Covered serves m) (hm : resume call m i = some m') :
    Covered serves m' := by
  obtain ⟨hi, rfl⟩ := resume_eq_some.mp hm
  have hlength : m.woken.length = (m.woken.erase i).length + 1 := by
    rw [List.length_erase_of_mem hi]
    have := List.length_pos_of_mem hi
    omega
  obtain ⟨d, hcall, heq⟩ | ⟨hcall, heq⟩ :=
    enter_cases call { m with woken := m.woken.erase i } i
  · rw [heq]
    intro hne
    have hall := h hne
    rw [hlength] at hall
    exact hserves.some hcall hall
  · rw [heq]
    exact fun _ => hserves.none hcall

/-- A wake takes a thread out of the blocked ones. -/
theorem covered_wake (h : Covered serves m) (hm : m.wake i = some m') : Covered serves m' := by
  obtain ⟨hi, rfl⟩ := wake_eq_some.mp hm
  exact fun _ => hserves.mono (h (List.ne_nil_of_mem hi))

omit [DecidableEq ι] hserves in
/-- A broadcast leaves no thread blocked. -/
theorem covered_notifyAll : Covered serves m.notifyAll := covered_of_blocked_eq_nil rfl

omit hserves in
/-- The data changes so that one more thread can be served, and one thread is notified. -/
theorem covered_notifyOne {d : σ} {choice : Option ι} (h : Covered serves m)
    (hd : ∀ n, serves m.data n → serves d (n + 1))
    (hm : notifyOne { m with data := d } choice = some m') : Covered serves m' := by
  cases choice with
  | none =>
    simp only [notifyOne, Option.ite_none_right_eq_some, Option.some.injEq] at hm
    obtain ⟨hnil, rfl⟩ := hm
    exact covered_of_blocked_eq_nil hnil
  | some i =>
    obtain ⟨hi, rfl⟩ := wake_eq_some.mp hm
    exact fun _ => hd _ (h (List.ne_nil_of_mem hi))

omit hserves in
/-- The woken threads can take the mutex one after another, and then no thread is woken. -/
theorem exists_resumeAll (call : ι → σ → Option σ) (m : Condvar σ ι) :
    ∃ m', exec (resume call) m m.woken = some m' ∧ m'.woken = [] := by
  -- induction on the woken threads: the first of them looks again and is no longer woken
  generalize hwoken : m.woken = woken
  induction woken generalizing m with
  | nil => exact ⟨m, rfl, hwoken⟩
  | cons i rest ih =>
    have hrest : (enter call { m with woken := m.woken.erase i } i).woken = rest := by
      have herase : m.woken.erase i = rest := by rw [hwoken, List.erase_cons_head]
      obtain ⟨d, -, heq⟩ | ⟨-, heq⟩ := enter_cases call { m with woken := m.woken.erase i } i
      · rw [heq]
        exact herase
      · rw [heq]
        exact herase
    obtain ⟨m', hrun, hnil⟩ := ih _ hrest
    refine ⟨m', exec_cons_eq_some.mpr ⟨_, resume_eq_some.mpr ⟨?_, rfl⟩, hrun⟩, hnil⟩
    rw [hwoken]
    exact List.mem_cons_self

end Condvar

end CPlayground
