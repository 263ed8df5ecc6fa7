import Mathlib.Algebra.BigOperators.Group.List.Basic

namespace CPlayground.Monitor

/-!
# Runner states and the eventfd notifier

`stateful::State` is the state word every runner and the listener carry.  `Notifier` wraps an
eventfd: a write adds its value to a 64-bit counter, a read returns the counter and clears it.
The model keeps the unread writes themselves; the code only ever sees their sum (`value`).
-/

/-- `stateful::State`. -/
inductive State where
  | NOTHINGNESS
  | INITIALIZED
  | TRANSFERRED
  | IDLE
  | WORK
  | TERMINATED
  deriving DecidableEq, Repr

/-- A thread of the process. -/
abbrev Tid := Nat

/-- An eventfd, as the list of the writes that have not been read yet. -/
structure Notifier where
  unread : List Nat
  deriving DecidableEq, Repr

namespace Notifier

/-- `kNotifyQuit`. -/
def kNotifyQuit : Nat := 0x1ffffffff

/-- `kNotifyOne`. -/
def kNotifyOne : Nat := 1

/-- Largest counter value an eventfd holds; a write that would pass it blocks. -/
def maxValue : Nat := 2 ^ 64 - 2

/-- A fresh eventfd: `eventfd(0, flags)`. -/
def new : Notifier := ⟨[]⟩

/-- The counter: the sum of the unread writes. -/
def value (n : Notifier) : Nat := n.unread.foldr (· + ·) 0

/-- `notify(event)`; `none` while the write blocks. -/
def notify (n : Notifier) (event : Nat) : Option Notifier :=
  if n.value + event ≤ maxValue then some ⟨event :: n.unread⟩ else none

/-- `retrieve()`: the counter, and the eventfd after the read. -/
def retrieve (n : Notifier) : Nat × Notifier := (n.value, new)

/-- A new eventfd counts zero. -/
@[simp] theorem value_new : new.value = 0 := rfl

/-- A write adds to the counter. -/
@[simp] theorem value_cons (n : Notifier) (event : Nat) :
    (⟨event :: n.unread⟩ : Notifier).value = event + n.value := rfl

/-- An enabled write is recorded in front of the unread ones. -/
theorem notify_eq_some {n m : Notifier} {event : Nat} :
    n.notify event = some m ↔ n.value + event ≤ maxValue ∧ m = ⟨event :: n.unread⟩ := by
  simp [notify, eq_comm]

end Notifier

end CPlayground.Monitor
