import Mathlib.Tactic.TypeStar

namespace CPlayground.Loop

/-!
# `while` loops

A loop is a condition and a body on the variables that it changes.  The body is a partial function:
`none` says that the source has no defined behaviour there, such as an access outside an array.

* `run cond body n s` — the loop from `s`, for at most `n` rounds.
* `run_mono` — more rounds than needed are not used.
* `run_diverges` — a loop whose condition stays true has no result.
* `run_induction` — a relation of the first and the last state, by induction over the rounds.
* `run_total` — an invariant and a variant of the body give that the loop ends, that `n` rounds
  are enough for it, and what holds then.
-/

variable {σ : Type*} {cond : σ → Bool} {body : σ → Option σ} {s t : σ} {n : Nat}

/-- `while (cond) body`, for at most `n` rounds.  `none` if the body fails or the condition still
    holds after them. -/
def run (cond : σ → Bool) (body : σ → Option σ) : Nat → σ → Option σ
  | 0,     s => if cond s then none else some s
  | n + 1, s => if cond s then (body s).bind (run cond body n) else some s

/-- A loop whose condition does not hold makes no round, whatever the fuel. -/
theorem run_of_not (h : cond s = false) : run cond body n s = some s := by
  cases n with
  | zero => simp [run, h]
  | succ n => simp [run, h]

/-- One round, and then the loop with one unit of fuel less. -/
theorem run_succ (h : cond s = true) (hbody : body s = some t) :
    run cond body (n + 1) s = run cond body n t := by
  simp [run, h, hbody]

/-- A round that fails ends the program, also if the fuel would be enough for more. -/
theorem run_eq_none (h : cond s = true) (hbody : body s = none) : run cond body n s = none := by
  cases n with
  | zero => simp [run, h]
  | succ n => simp [run, h, hbody]

/-- More rounds do not change the result: once the condition is false, the rounds that are left are
    not taken. -/
theorem run_mono {m : Nat} (hrun : run cond body n s = some t) (hle : n ≤ m) :
    run cond body m s = some t := by
  induction n generalizing s m with
  | zero =>
    cases hc : cond s with
    | false => rwa [run_of_not hc] at hrun ⊢
    | true => simp [run, hc] at hrun
  | succ n ih =>
    cases hc : cond s with
    | false => rwa [run_of_not hc] at hrun ⊢
    | true =>
      obtain ⟨m, rfl⟩ : ∃ k, m = k + 1 := ⟨m - 1, by omega⟩
      rw [run, if_pos hc, Option.bind_eq_some_iff] at hrun
      obtain ⟨r, hbody, hr⟩ := hrun
      rw [run_succ hc hbody]
      exact ih hr (by omega)

/-- **A loop that does not end**: from every state of `I` the condition holds, and every round leads
    to a state of `I` again, or fails. -/
theorem run_diverges {I : σ → Prop} (hcond : ∀ s, I s → cond s = true)
    (hround : ∀ s t, I s → body s = some t → I t) (hs : I s) : run cond body n s = none := by
  induction n generalizing s with
  | zero => simp [run, hcond s hs]
  | succ n ih =>
    cases hbody : body s with
    | none => exact run_eq_none (hcond s hs) hbody
    | some t => rw [run_succ (hcond s hs) hbody, ih (hround s t hs hbody)]

/-- **Induction over the rounds** of a loop that ends: what holds where the condition does not, and
    is carried back over a round, holds between the first state and the last one. -/
theorem run_induction {P : σ → σ → Prop} (hdone : ∀ s, cond s = false → P s s)
    (hround : ∀ s r t k, cond s = true → body s = some r → run cond body k r = some t → P r t →
      P s t)
    (hrun : run cond body n s = some t) : P s t := by
  induction n generalizing s with
  | zero =>
    cases hc : cond s with
    | false =>
      cases (run_of_not hc).symm.trans hrun
      exact hdone _ hc
    | true => simp [run, hc] at hrun
  | succ n ih =>
    cases hc : cond s with
    | false =>
      cases (run_of_not hc).symm.trans hrun
      exact hdone _ hc
    | true =>
      rw [run, if_pos hc, Option.bind_eq_some_iff] at hrun
      obtain ⟨r, hbody, hr⟩ := hrun
      exact hround s r t n hc hbody hr (ih hr)

/-- **Total correctness.**  If each round keeps the invariant `I` and makes the variant `v` smaller,
    then the loop ends within `v s` rounds, in a state where `I` holds and the condition does
    not. -/
theorem run_total {I : σ → Prop} {v : σ → Nat}
    (hround : ∀ s, I s → cond s = true → ∃ t, body s = some t ∧ I t ∧ v t < v s)
    (hs : I s) (hn : v s ≤ n) : ∃ t, run cond body n s = some t ∧ I t ∧ cond t = false := by
  induction n generalizing s with
  | zero =>
    cases hc : cond s with
    | false => exact ⟨s, run_of_not hc, hs, hc⟩
    | true =>
      exfalso
      obtain ⟨t, -, -, hlt⟩ := hround s hs hc
      omega
  | succ n ih =>
    cases hc : cond s with
    | false => exact ⟨s, run_of_not hc, hs, hc⟩
    | true =>
      obtain ⟨t, hbody, ht, hlt⟩ := hround s hs hc
      obtain ⟨u, hrun, hu⟩ := ih ht (by omega)
      exact ⟨u, (run_succ hc hbody).trans hrun, hu⟩

end CPlayground.Loop
