import CPlayground.Lib.Condvar
import Mathlib.Data.List.Perm.Basic

namespace CPlayground.Container

open CPlayground.Trace

/-!
# `BQ`: a blocking queue for one get per thread

`put` pushes an element and notifies all threads, `get` waits until the queue is not empty and takes
the front.  The program starts consumer threads that call `get` once each, and a producer.  Each
locked block is one step, and so is every look of a woken thread at the condition.

* `BQ.step` — the steps, with spurious wake-ups.
* `BQ.inv_step` — what is taken and what is left are the elements put, and every thread that has
  called `get` has its element or is still in the call.
* `BQ.all_served` — with as many elements as calls, the woken threads alone bring every call to its
  end: each thread has one element, and together they have all of them.
-/

variable {T ι : Type}

namespace BQ

/-- The queue.  `puts`, `got` and `callers` record the history: the elements put, those that the
    threads have got, and the threads that have called `get`. -/
structure Data (T ι : Type) where
  q : List T
  puts : List T
  got : List (ι × T)
  callers : List ι
  deriving DecidableEq

end BQ

/-- A `BQ` with the threads that are in `get`. -/
abbrev BQ (T ι : Type) := Condvar (BQ.Data T ι) ι

namespace BQ

/-- The empty queue; nobody has called `get`. -/
def init : BQ T ι := ⟨⟨[], [], [], []⟩, [], []⟩

/-- The locked block of `get` once `cv_.wait` returns, `none` while the queue is empty. -/
def get (i : ι) (d : Data T ι) : Option (Data T ι) :=
  match d.q with
  | []      => none
  | t :: ts =>
    -- an empty queue is swapped with a new one
    some { d with q := if ts.isEmpty then [] else ts, got := d.got ++ [(i, t)] }

/-- The locked block of `put`, without the notification. -/
def put (t : T) (d : Data T ι) : Data T ι := { d with q := d.q ++ [t], puts := d.puts ++ [t] }

/-- The steps of the threads: `put`, a first look at the condition, a look of a woken thread, and a
    wake-up for no reason. -/
inductive Act (T ι : Type) where
  | put (t : T)
  /-- A consumer thread calls `get`. -/
  | get (i : ι)
  /-- A woken thread takes the mutex again. -/
  | resume (i : ι)
  /-- A thread is woken for no reason. -/
  | spurious (i : ι)

variable [DecidableEq ι]

/-- One step. -/
def step (s : BQ T ι) : Act T ι → Option (BQ T ι)
  | .put t => some (Condvar.notifyAll { s with data := put t s.data })
  | .get i =>
    -- a consumer thread calls `get` once
    if i ∈ s.data.callers then none
    else some (Condvar.enter get { s with data.callers := i :: s.data.callers } i)
  | .resume i => Condvar.resume get s i
  | .spurious i => s.wake i

variable {s s' : BQ T ι} {acts : List (Act T ι)}

omit [DecidableEq ι] in
/-- `get` takes the front, and there is no result for an empty queue: the thread blocks. -/
theorem get_eq_some {i : ι} {d d' : Data T ι} : get i d = some d' ↔
    ∃ t ts, d.q = t :: ts ∧ d' = { d with q := ts, got := d.got ++ [(i, t)] } := by
  have hswap : ∀ ts : List T, (if ts.isEmpty then [] else ts) = ts := fun ts => by
    cases ts <;> rfl
  unfold get
  cases d.q with
  | nil => simp
  | cons t ts =>
    simp only [hswap, Option.some.injEq]
    constructor
    · rintro rfl
      exact ⟨t, ts, rfl, rfl⟩
    · rintro ⟨t', ts', ⟨⟩, rfl⟩
      rfl

omit [DecidableEq ι] in
/-- A thread waits exactly while the queue is empty. -/
theorem get_eq_none {i : ι} {d : Data T ι} : get i d = none ↔ d.q = [] := by
  unfold get
  cases d.q with
  | nil => simp
  | cons t ts => simp

/-! ### What the runs preserve -/

/-- What is taken and what is left are the elements put; every caller has its element or is still in
    the call. -/
structure Inv (s : BQ T ι) : Prop where
  order : s.data.got.map Prod.snd ++ s.data.q = s.data.puts
  calls : (s.data.got.map Prod.fst ++ (s.blocked ++ s.woken)).Perm s.data.callers
  covered : Condvar.Covered (fun d n => d.q.length ≤ n) s

omit [DecidableEq ι] in
/-- Nothing was put, and nobody waits. -/
theorem inv_init : Inv (init : BQ T ι) := ⟨rfl, .nil, Condvar.covered_of_blocked_eq_nil rfl⟩

omit [DecidableEq ι] in
/-- What serves a thread is one element. -/
theorem serves_get : Condvar.Serves get (fun (d : Data T ι) n => d.q.length ≤ n) where
  none := by
    intro i d n h
    rw [get_eq_none.mp h]
    exact Nat.zero_le n
  some := by
    intro i d d' n h hlength
    obtain ⟨t, ts, hq, rfl⟩ := get_eq_some.mp h
    rw [hq] at hlength
    exact Nat.le_of_succ_le_succ hlength
  mono := Nat.le_succ_of_le

omit [DecidableEq ι] in
/-- A thread that is in `get`, but neither blocked nor woken, takes the mutex. -/
theorem inv_enter {i : ι} (horder : s.data.got.map Prod.snd ++ s.data.q = s.data.puts)
    (hcalls : (i :: (s.data.got.map Prod.fst ++ (s.blocked ++ s.woken))).Perm s.data.callers)
    (hcovered : Condvar.Covered (fun d n => d.q.length ≤ n) (Condvar.enter get s i)) :
    Inv (Condvar.enter get s i) := by
  obtain ⟨d, hcall, heq⟩ | ⟨-, heq⟩ := Condvar.enter_cases get s i
  · obtain ⟨t, ts, hq, rfl⟩ := get_eq_some.mp hcall
    rw [heq] at hcovered ⊢
    refine ⟨?_, ?_, hcovered⟩
    · simp only [List.map_append, List.map_cons, List.map_nil, List.append_assoc, List.cons_append,
        List.nil_append, ← hq, horder]
    · simp only [List.map_append, List.map_cons, List.map_nil, List.append_assoc, List.cons_append,
        List.nil_append]
      exact List.perm_middle.trans hcalls
  · rw [heq] at hcovered ⊢
    refine ⟨horder, ?_, hcovered⟩
    rw [List.cons_append]
    exact List.perm_middle.trans hcalls

/-- **One step keeps the invariant.**  A `put` adds an element and wakes everybody; a thread that
    finds one takes the front, and one that finds none blocks. -/
theorem inv_step {a : Act T ι} (h : Inv s) (hst : step s a = some s') : Inv s' := by
  cases a with
  | put t =>
    cases hst
    refine ⟨?_, ?_, Condvar.covered_notifyAll⟩
    · simp only [Condvar.notifyAll, put, ← List.append_assoc, h.order]
    · exact h.calls
  | get i =>
    simp only [step, Option.ite_none_left_eq_some, Option.some.injEq] at hst
    obtain ⟨-, rfl⟩ := hst
    exact inv_enter h.order (h.calls.cons i) <|
      Condvar.covered_enter (m := { s with data.callers := i :: s.data.callers }) serves_get
        h.covered i
  | resume i =>
    have hcovered := Condvar.covered_resume serves_get h.covered hst
    obtain ⟨hi, rfl⟩ := Condvar.resume_eq_some.mp hst
    refine inv_enter h.order (.trans ?_ h.calls) hcovered
    -- the thread leaves the woken ones
    rw [← List.append_assoc, ← List.append_assoc]
    exact List.perm_middle.symm.trans ((List.perm_cons_erase hi).symm.append_left _)
  | spurious i =>
    have hcovered := Condvar.covered_wake serves_get h.covered hst
    obtain ⟨hi, rfl⟩ := Condvar.wake_eq_some.mp hst
    refine ⟨h.order, .trans (.append_left _ ?_) h.calls, hcovered⟩
    exact List.perm_middle.trans ((List.perm_cons_erase hi).symm.append_right _)

/-- The invariant of every run. -/
theorem inv_exec (hrun : exec step init acts = some s) : Inv s :=
  exec_invariant (fun _ _ _ h hst => inv_step h hst) inv_init hrun

/-! ### Every call is served -/

/-- The second looks neither put an element nor call `get`: the threads have called it before. -/
theorem history_resume {is : List ι} (hrun : exec step s (is.map .resume) = some s') :
    s'.data.puts = s.data.puts ∧ s'.data.callers = s.data.callers := by
  rw [exec_map_labels] at hrun
  refine exec_invariant (P := fun t : BQ T ι =>
    t.data.puts = s.data.puts ∧ t.data.callers = s.data.callers) ?_ ⟨rfl, rfl⟩ hrun
  rintro t i t' ⟨hputs, hcallers⟩ hst
  obtain ⟨-, rfl⟩ := Condvar.resume_eq_some.mp hst
  obtain ⟨d, hcall, heq⟩ | ⟨-, heq⟩ :=
    Condvar.enter_cases get { t with woken := t.woken.erase i } i
  · obtain ⟨x, xs, -, rfl⟩ := get_eq_some.mp hcall
    rw [heq]
    exact ⟨hputs, hcallers⟩
  · rw [heq]
    exact ⟨hputs, hcallers⟩

omit [DecidableEq ι] in
/-- As many elements as calls, and no thread is woken: nobody is blocked, nothing is left. -/
theorem settled (h : Inv s) (hwoken : s.woken = [])
    (hmany : s.data.callers.length = s.data.puts.length) :
    s.blocked = [] ∧ s.data.q = [] := by
  have hputs : s.data.got.length + s.data.q.length = s.data.puts.length := by
    rw [← h.order, List.length_append, List.length_map]
  have hcalls : s.data.got.length + s.blocked.length = s.data.callers.length := by
    rw [← h.calls.length_eq, hwoken, List.append_nil, List.length_append, List.length_map]
  have hblocked : s.blocked = [] := by
    by_contra hne
    -- a blocked thread says that the queue is empty, so that all calls have their element
    have hq := h.covered hne
    rw [hwoken, List.length_nil] at hq
    exact hne (List.length_eq_zero_iff.mp (by omega))
  refine ⟨hblocked, List.length_eq_zero_iff.mp ?_⟩
  rw [hblocked, List.length_nil] at hcalls
  omega

/-- **Every call is served.**  In every interleaving, once as many elements are put as threads have
    called `get`, the woken threads can all look again, and then every thread that has called `get`
    has one element; together they have all the elements put, in the order of the puts. -/
theorem all_served (acts : List (Act T ι)) (s : BQ T ι) (hrun : exec step init acts = some s)
    (hmany : s.data.callers.length = s.data.puts.length) :
    ∃ s', exec step s (s.woken.map .resume) = some s' ∧ s'.blocked = [] ∧ s'.woken = [] ∧
      s'.data.got.map Prod.snd = s.data.puts ∧
      (s'.data.got.map Prod.fst).Perm s.data.callers := by
  obtain ⟨s', hresume, hwoken⟩ := Condvar.exists_resumeAll get s
  have hall : exec step s (s.woken.map .resume) = some s' := by
    rw [exec_map_labels]
    exact hresume
  have hinv := inv_exec (exec_append_eq_some.mpr ⟨s, hrun, hall⟩)
  obtain ⟨hputs, hcallers⟩ := history_resume hall
  obtain ⟨hblocked, hq⟩ := settled hinv hwoken (by rw [hcallers, hputs, hmany])
  have horder := hinv.order
  have hcalls := hinv.calls
  rw [hq, List.append_nil, hputs] at horder
  rw [hblocked, hwoken, List.append_nil, List.append_nil, hcallers] at hcalls
  exact ⟨s', hall, hblocked, hwoken, horder, hcalls⟩

/-- Three threads call `get`, three elements are put; thread 3 gets the first of them before it was
    ever blocked. -/
def threeConsumers : List (Act Nat Nat) :=
  [.get 1, .put 10, .get 3, .resume 1, .get 2, .put 20, .resume 2, .resume 1,
   .spurious 1, .put 30]

/-- Three consumers, and the elements come after they have called. -/
theorem all_served_threeConsumers : ∃ s, exec step init threeConsumers = some s ∧
    s.data.callers.length = s.data.puts.length ∧
    ∃ s', exec step s (s.woken.map .resume) = some s' ∧ s'.blocked = [] ∧
      s'.data.got.map Prod.snd = s.data.puts := by
  obtain ⟨s, hrun, htest⟩ := exists_of_exec_any
    (show (exec step init threeConsumers).any
      (fun s => s.data.callers.length = s.data.puts.length) = true by decide +kernel)
  have hmany := of_decide_eq_true htest
  obtain ⟨s', hall, hblocked, -, hgot, -⟩ := all_served threeConsumers s hrun hmany
  exact ⟨s, hrun, hmany, s', hall, hblocked, hgot⟩

end BQ

end CPlayground.Container
