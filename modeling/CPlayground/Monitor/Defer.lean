import CPlayground.Lib.Table
import CPlayground.Lib.Trace
import Mathlib.Algebra.Order.Group.Multiset
import Mathlib.Tactic.Abel

namespace CPlayground.Monitor

open CPlayground.Table CPlayground.Trace

/-!
# `Defer`: closures that run when an object dies

A `Defer` holds a closure or none.  Assignment exchanges the closures of two objects, so a closure
that was there before ends up in the other one, often a temporary, and runs when that is destroyed.

The objects are named by numbers.  A closure is named as well: each construction copies its
function, so the closures of two constructions are different ones.  A closure returns, and does not
touch any `Defer`.

* `Defers.Sound` — a closure is held by an object, or it was executed or cancelled, once.
* `deferred_exactly_once` — so it is executed at most once, and if it is not cancelled it is
  executed by the time that every object is destroyed.
-/

/-- The objects that are alive, with their `closure_`.  The last three fields record the closures
    that were handed to a constructor, those that were executed and those that were cancelled. -/
structure Defers (κ : Type*) where
  objects : AList fun _ : Nat => Option κ := ∅
  constructed : List κ := []
  executed : List κ := []
  cancelled : List κ := []

namespace Defers

variable {κ : Type*}

/-- `closure_.swap(defer.closure_)`. -/
def swap (s : Defers κ) (d e : Nat) : Option (Defers κ) :=
  match s.objects.lookup d, s.objects.lookup e with
  | some x, some y => some { s with objects := (s.objects.insert d y).insert e x }
  | _, _           => none

/-- `Defer()`. -/
def construct (s : Defers κ) (d : Nat) : Option (Defers κ) :=
  if d ∈ s.objects then none else some { s with objects := s.objects.insert d none }

/-- `Defer(Closure)`, with a closure or an empty function. -/
def constructWith [DecidableEq κ] (s : Defers κ) (d : Nat) (closure : Option κ) :
    Option (Defers κ) :=
  if d ∈ s.objects ∨ ∃ c ∈ closure, c ∈ s.constructed then none
  else some { s with
    objects := s.objects.insert d closure, constructed := s.constructed ++ closure.toList }

/-- `operator=(Defer &&)`. -/
def moveAssign (s : Defers κ) (d e : Nat) : Option (Defers κ) := s.swap d e

/-- `Defer(Defer &&)`. -/
def moveConstruct (s : Defers κ) (d e : Nat) : Option (Defers κ) :=
  (s.construct d).bind fun s => s.moveAssign d e

/-- `cancel()`: the closure goes to a local function, which is dropped. -/
def cancel (s : Defers κ) (d : Nat) : Option (Defers κ) :=
  (s.objects.lookup d).map fun x =>
    { s with objects := s.objects.insert d none, cancelled := s.cancelled ++ x.toList }

/-- `trigger()` and `operator()()`. -/
def trigger (s : Defers κ) (d : Nat) : Option (Defers κ) :=
  (s.objects.lookup d).map fun
    | some c => { s with objects := s.objects.insert d none, executed := s.executed ++ [c] }
    | none   => s

/-- `~Defer()`. -/
def destroy (s : Defers κ) (d : Nat) : Option (Defers κ) :=
  (s.objects.lookup d).map fun x =>
    { s with objects := s.objects.erase d, executed := s.executed ++ x.toList }

/-- An operation on `Defer` objects; the assignment of a temporary is a construction, an exchange
    and a destruction. -/
inductive Act (κ : Type*) where
  | construct (d : Nat)
  | constructWith (d : Nat) (closure : Option κ)
  | moveConstruct (d e : Nat)
  | moveAssign (d e : Nat)
  | swap (d e : Nat)
  | cancel (d : Nat)
  | trigger (d : Nat)
  | destroy (d : Nat)

/-- One operation.  It is enabled if the objects that it is about are alive, and one that it
    constructs is not. -/
def step [DecidableEq κ] (s : Defers κ) : Act κ → Option (Defers κ)
  | .construct d             => s.construct d
  | .constructWith d closure => s.constructWith d closure
  | .moveConstruct d e       => s.moveConstruct d e
  | .moveAssign d e          => s.moveAssign d e
  | .swap d e                => s.swap d e
  | .cancel d                => s.cancel d
  | .trigger d               => s.trigger d
  | .destroy d               => s.destroy d

/-! ### Where the closures are -/

/-- The closures that objects hold. -/
def held (objects : AList fun _ : Nat => Option κ) : List κ :=
  (values objects).flatMap Option.toList

/-- Every closure is in one place: those that are held by the objects, those that were executed and
    those that were cancelled are, together, the ones that were made, and no two have the same
    name. -/
structure Sound (s : Defers κ) : Prop where
  account : (held s.objects + s.executed + s.cancelled : Multiset κ) = s.constructed
  nodup : s.constructed.Nodup

variable {s t : Defers κ} {objects : AList fun _ : Nat => Option κ} {d e : Nat} {x y : Option κ}

/-- A new object holds its closure. -/
theorem held_insert (h : d ∉ objects) :
    (held (objects.insert d x) : Multiset κ) = x.toList + held objects := by
  rw [held, values_insert h, List.flatMap_cons, ← Multiset.coe_add, held]

/-- A destroyed object holds nothing any more. -/
theorem held_erase (h : objects.lookup d = some x) :
    (held objects : Multiset κ) = x.toList + held (objects.erase d) := by
  rw [held, held, Multiset.coe_add, Multiset.coe_eq_coe, ← List.flatMap_cons]
  exact (values_erase h).flatMap_right _

/-- Nor does one whose closure was taken. -/
theorem held_clear (h : objects.lookup d = some x) :
    (held objects : Multiset κ) = x.toList + held (objects.insert d none) := by
  rw [held_erase h, held, held, values_insert_erase, List.flatMap_cons, Option.toList_none,
    List.nil_append]

/-- There are no objects. -/
theorem sound_init : Sound ({} : Defers κ) := ⟨rfl, List.nodup_nil⟩

/-- A change that keeps the sum of the closures. -/
theorem Sound.keep (hs : Sound s) (hconstructed : t.constructed = s.constructed)
    (hsum : (held t.objects + t.executed + t.cancelled : Multiset κ)
      = held s.objects + s.executed + s.cancelled) : Sound t where
  account := by rw [hsum, hs.account, hconstructed]
  nodup := hconstructed ▸ hs.nodup

/-- An exchange does not change what is held by all objects together. -/
theorem sound_swap (hs : Sound s) (h : s.swap d e = some t) : Sound t := by
  unfold swap at h
  split at h
  · rename_i x y hx hy
    cases h
    refine hs.keep rfl ?_
    have hheld : (held ((s.objects.insert d y).insert e x) : Multiset κ) = held s.objects :=
      Multiset.coe_eq_coe.mpr ((values_swap hx hy).flatMap_right _)
    rw [hheld]
  · cases h

/-- A `Defer` without a closure. -/
theorem sound_construct (hs : Sound s) (h : s.construct d = some t) : Sound t := by
  unfold construct at h
  split_ifs at h with hd
  cases h
  refine hs.keep rfl ?_
  rw [held_insert hd]
  exact congrArg (· + _ + _) (zero_add _)

/-- A new closure gets a name of its own. -/
theorem sound_constructWith [DecidableEq κ] (hs : Sound s) {closure : Option κ}
    (h : s.constructWith d closure = some t) : Sound t := by
  unfold constructWith at h
  split_ifs at h with hnew
  cases h
  rw [not_or] at hnew
  refine ⟨?_, ?_⟩
  · rw [held_insert hnew.1, ← Multiset.coe_add, ← hs.account]
    abel
  · -- the closure of a construction is a new one
    refine List.nodup_append'.mpr ⟨hs.nodup, ?_, fun c hc hmem => ?_⟩
    · cases closure <;> simp
    · exact hnew.2 ⟨c, Option.mem_toList.mp hmem, hc⟩

/-- Moving is constructing without a closure and exchanging. -/
theorem sound_moveConstruct (hs : Sound s) (h : s.moveConstruct d e = some t) : Sound t := by
  obtain ⟨u, hu, ht⟩ := Option.bind_eq_some_iff.mp h
  exact sound_swap (sound_construct hs hu) ht

/-- A closure that is cancelled is not held any more. -/
theorem sound_cancel (hs : Sound s) (h : s.cancel d = some t) : Sound t := by
  obtain ⟨x, hx, rfl⟩ := Option.map_eq_some_iff.mp h
  refine hs.keep rfl ?_
  rw [← Multiset.coe_add, held_clear hx]
  abel

/-- **A closure that is triggered** is executed, and its object is empty then. -/
theorem sound_trigger (hs : Sound s) (h : s.trigger d = some t) : Sound t := by
  obtain ⟨x, hx, ht⟩ := Option.map_eq_some_iff.mp h
  cases x with
  | none => exact ht ▸ hs
  | some c =>
    subst ht
    refine hs.keep rfl ?_
    rw [← Multiset.coe_add, held_clear hx, Option.toList_some]
    abel

/-- A destructor triggers the closure that is left. -/
theorem sound_destroy (hs : Sound s) (h : s.destroy d = some t) : Sound t := by
  obtain ⟨x, hx, rfl⟩ := Option.map_eq_some_iff.mp h
  refine hs.keep rfl ?_
  rw [← Multiset.coe_add, held_erase hx]
  abel

/-- **One operation keeps every closure in one place.**  It is executed by `trigger` or by the
    destructor, and nobody holds it any more then. -/
theorem sound_step [DecidableEq κ] (a : Act κ) (hs : Sound s) (h : step s a = some t) :
    Sound t := by
  cases a with
  | construct d => exact sound_construct hs h
  | constructWith d closure => exact sound_constructWith hs h
  | moveConstruct d e => exact sound_moveConstruct hs h
  | moveAssign d e => exact sound_swap hs h
  | swap d e => exact sound_swap hs h
  | cancel d => exact sound_cancel hs h
  | trigger d => exact sound_trigger hs h
  | destroy d => exact sound_destroy hs h

/-! ### The end of the objects -/

variable [DecidableEq κ] {acts : List (Act κ)}

/-- However `Defer` objects are constructed, moved, swapped, cancelled, triggered and destroyed, a
    closure is executed at most once, and not if it is cancelled; when no object is left, a closure
    that was not cancelled has been executed once. -/
theorem deferred_exactly_once (h : exec step {} acts = some s) :
    (∀ c, s.executed.count c ≤ 1) ∧ (∀ c ∈ s.cancelled, c ∉ s.executed) ∧
      (s.objects = ∅ → ∀ c ∈ s.constructed, c ∉ s.cancelled → s.executed.count c = 1) := by
  obtain ⟨haccount, hnodup⟩ := exec_invariant (fun _ a _ => sound_step a) sound_init h
  -- the three places of a closure together have it once, if it was constructed
  have hcount : ∀ c, (held s.objects).count c + s.executed.count c + s.cancelled.count c
      = s.constructed.count c := by
    intro c
    simpa [Nat.add_assoc] using congrArg (Multiset.count c) haccount
  have hone : ∀ c, s.constructed.count c ≤ 1 := List.nodup_iff_count_le_one.mp hnodup
  refine ⟨fun c => ?_, fun c hcancelled hexecuted => ?_, fun hempty c hc hcancelled => ?_⟩
  · have := hcount c
    have := hone c
    omega
  · have := hcount c
    have := hone c
    have := List.count_pos_iff.mpr hcancelled
    have := List.count_pos_iff.mpr hexecuted
    omega
  · have hsum := hcount c
    have hheld : held s.objects = [] := by rw [hempty]; rfl
    rw [hheld, List.count_nil, List.count_eq_zero.mpr hcancelled,
      List.count_eq_one_of_mem hnodup hc] at hsum
    omega

/-- A closure is assigned to an object from a temporary, and another one is swapped in for it and
    cancelled. -/
theorem deferred_exactly_once_assigned : ∃ s : Defers Nat,
    exec step {} [.construct 0, .constructWith 1 (some 7), .moveAssign 0 1, .destroy 1,
      .constructWith 2 (some 8), .swap 0 2, .cancel 0, .destroy 0, .destroy 2] = some s ∧
    s.executed.count 7 = 1 ∧ 8 ∉ s.executed := by
  obtain ⟨s, hs, hp⟩ := exists_of_exec_any (p := fun s : Defers Nat =>
    decide (s.objects.entries = [] ∧ 7 ∈ s.constructed ∧ 7 ∉ s.cancelled ∧ 8 ∈ s.cancelled))
    (show (exec step {} [.construct 0, .constructWith 1 (some 7), .moveAssign 0 1, .destroy 1,
      .constructWith 2 (some 8), .swap 0 2, .cancel 0, .destroy 0, .destroy 2]).any _ = true by
      decide +kernel)
  obtain ⟨hobjects, hconstructed, hkept, hcancelled⟩ := of_decide_eq_true hp
  obtain ⟨-, hnot, hdone⟩ := deferred_exactly_once hs
  exact ⟨s, hs, hdone (AList.ext hobjects) 7 hconstructed hkept, hnot 8 hcancelled⟩

/-! ### `switchstate` -/

/-- What an iteration of `Listener::run` does with `switchstate`, the object 0, and with the
    temporary 1 if a peer is accepted. -/
def switchstate (accepted : Bool) (onWork : κ) : List (Act κ) :=
  .construct 0 :: (if accepted then
    [.constructWith 1 (some onWork), .moveAssign 0 1, .destroy 1] else []) ++ [.destroy 0]

/-- The temporary is destroyed without a closure, so `onWork` waits for the end of the iteration. -/
theorem exec_switchstate {onWork : κ} (h0 : 0 ∉ s.objects) (h1 : 1 ∉ s.objects)
    (hnew : onWork ∉ s.constructed) (accepted : Bool) :
    ∃ t, exec step s (switchstate accepted onWork) = some t ∧
      t.executed = s.executed ++ (if accepted then [onWork] else []) := by
  cases accepted with
  | false => simp [switchstate, exec, step, construct, destroy, h0]
  | true =>
    simp [switchstate, exec, step, construct, constructWith, moveAssign, swap, destroy, h0, h1,
      hnew, AList.lookup_insert_ne]

end Defers

end CPlayground.Monitor
