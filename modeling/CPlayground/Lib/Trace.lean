import Mathlib.Tactic.TypeStar

namespace CPlayground.Trace

/-!
# Runs of a labelled transition function

An interleaving of several threads is a list of labels, each naming the thread and the
atomic step it takes.  A system is then one partial function `step : σ → α → Option σ`:
`none` says that the label is not enabled (a blocked call, a lock held by another thread).

* `exec step s as` — run the labels `as` from `s`; `none` as soon as one is not enabled.
* `exists_step_of_exec` — what does not hold before a run and does after it is set by one of its
  steps.
* `exec_map` — a system with more fields has the runs of the one without them.
* `exec_map_labels` — a run whose labels are all of one kind.
* `exec_until` — a thread that runs alone reaches its goal if each of its steps lowers a measure.
* `exec_invariant` — what every enabled step preserves holds after every run.
* `Along step ok s as` — every label of the run is taken in a state where `ok` allows it.
* `exec_invariant_along` — the invariant rule for steps that only preserve under `ok`.
* `exec_invariants_along` — the same on top of an invariant that needs no condition.
-/

variable {σ α : Type*} {step : σ → α → Option σ}

/-- Run a list of labels from `s`. -/
def exec (step : σ → α → Option σ) : σ → List α → Option σ
  | s, []      => some s
  | s, a :: as => (step s a).bind fun s' => exec step s' as

/-- The run without labels stays where it is. -/
@[simp] theorem exec_nil (s : σ) : exec step s [] = some s := rfl

/-- A run starting with `a` is one step followed by a run of the rest. -/
theorem exec_cons_eq_some {s t : σ} {a : α} {as : List α} :
    exec step s (a :: as) = some t ↔ ∃ u, step s a = some u ∧ exec step u as = some t := by
  simp [exec, Option.bind_eq_some_iff]

/-- Runs compose. -/
theorem exec_append_eq_some {s t : σ} {as bs : List α} :
    exec step s (as ++ bs) = some t ↔
      ∃ u, exec step s as = some u ∧ exec step u bs = some t := by
  induction as generalizing s with
  | nil => simp
  | cons a as ih =>
    simp only [List.cons_append, exec_cons_eq_some, ih]
    constructor
    · rintro ⟨u, hu, v, hv, ht⟩
      exact ⟨v, ⟨u, hu, hv⟩, ht⟩
    · rintro ⟨v, ⟨u, hu, hv⟩, ht⟩
      exact ⟨u, hu, v, hv, ht⟩

/-- A run that is not possible stops at a label that is not enabled. -/
theorem exists_of_exec_eq_none {s : σ} {as : List α} (h : exec step s as = none) :
    ∃ bs a cs u, as = bs ++ a :: cs ∧ exec step s bs = some u ∧ step u a = none := by
  induction as generalizing s with
  | nil => simp at h
  | cons a as ih =>
    cases hstep : step s a with
    | none => exact ⟨[], a, as, s, rfl, rfl, hstep⟩
    | some u =>
      rw [exec, hstep] at h
      obtain ⟨bs, b, cs, v, rfl, hv, hb⟩ := ih h
      exact ⟨a :: bs, b, cs, v, rfl, exec_cons_eq_some.mpr ⟨u, hstep, hv⟩, hb⟩

/-- **The step that sets a property.**  A property that holds after a run and not before it: there
    is a first step after which it holds. -/
theorem exists_step_of_exec {P : σ → Prop} {s t : σ} {as : List α}
    (h : exec step s as = some t) (hs : ¬ P s) (ht : P t) :
    ∃ bs a cs u v, as = bs ++ a :: cs ∧ exec step s bs = some u ∧ step u a = some v ∧
      ¬ P u ∧ P v := by
  induction as generalizing s with
  | nil =>
    cases h
    exact absurd ht hs
  | cons a as ih =>
    obtain ⟨u, hu, h⟩ := exec_cons_eq_some.mp h
    by_cases hP : P u
    · exact ⟨[], a, as, s, u, rfl, rfl, hu, hs, hP⟩
    · obtain ⟨bs, b, cs, v, w, rfl, hv, hw, hPv, hPw⟩ := ih h hP
      exact ⟨a :: bs, b, cs, v, w, rfl, exec_cons_eq_some.mpr ⟨u, hu, hv⟩, hw, hPv, hPw⟩

/-- A system that keeps more than another one, and takes its steps, has its runs. -/
theorem exec_map {τ : Type*} {step' : τ → α → Option τ} {f : τ → σ}
    (hstep : ∀ t a, (step' t a).map f = step (f t) a) (t : τ) (as : List α) :
    (exec step' t as).map f = exec step (f t) as := by
  induction as generalizing t with
  | nil => rfl
  | cons a as ih =>
    rw [exec, exec, ← hstep t a]
    cases step' t a with
    | none => rfl
    | some u => exact ih u

/-- A run whose labels are all of one kind. -/
theorem exec_map_labels {β : Type*} (f : β → α) (s : σ) (bs : List β) :
    exec step s (bs.map f) = exec (fun s b => step s (f b)) s bs := by
  induction bs generalizing s with
  | nil => rfl
  | cons b bs ih => simp only [List.map_cons, exec, ih]

/-- **One thread alone.**  If the label `a` is enabled until `Q` holds, keeps `P` and lowers a
    measure, then a run of that label alone reaches `Q`. -/
theorem exec_until {a : α} {P Q : σ → Prop} {measure : σ → Nat}
    (hstep : ∀ s, P s → ¬ Q s → ∃ t, step s a = some t ∧ P t ∧ measure t < measure s)
    {s : σ} (hs : P s) :
    ∃ n t, exec step s (List.replicate n a) = some t ∧ P t ∧ Q t := by
  generalize hn : measure s = m
  induction m using Nat.strongRecOn generalizing s with
  | _ m ih =>
    by_cases hq : Q s
    · exact ⟨0, s, rfl, hs, hq⟩
    · obtain ⟨u, hu, hpu, hlt⟩ := hstep s hs hq
      obtain ⟨n, t, hrun, ht⟩ := ih (measure u) (hn ▸ hlt) hpu rfl
      exact ⟨n + 1, t, exec_cons_eq_some.mpr ⟨u, hu, hrun⟩, ht⟩

/-- A test that succeeds on the outcome of a run exhibits that outcome. -/
theorem exists_of_exec_any {s : σ} {as : List α} {p : σ → Bool}
    (h : (exec step s as).any p = true) : ∃ t, exec step s as = some t ∧ p t = true := by
  rwa [Option.any_eq_true] at h

/-- Every label of the run `as` from `s` is taken in a state where `ok` holds of it. -/
def Along (step : σ → α → Option σ) (ok : σ → α → Prop) : σ → List α → Prop
  | _, []      => True
  | s, a :: as => ok s a ∧
      match step s a with
      | some u => Along step ok u as
      | none   => True

instance decidableAlong {ok : σ → α → Prop} [∀ s a, Decidable (ok s a)] :
    (s : σ) → (as : List α) → Decidable (Along step ok s as)
  | _, []      => .isTrue trivial
  | s, a :: as =>
    letI : Decidable (match step s a with
        | some u => Along step ok u as
        | none   => True) :=
      match step s a with
      | some u => decidableAlong u as
      | none   => .isTrue trivial
    inferInstanceAs (Decidable (ok s a ∧ _))

/-- A run without labels meets every condition. -/
@[simp] theorem along_nil (ok : σ → α → Prop) (s : σ) : Along step ok s [] := trivial

/-- `Along` at the first label of a run. -/
theorem along_cons {ok : σ → α → Prop} {s : σ} {a : α} {as : List α} :
    Along step ok s (a :: as) ↔ ok s a ∧ ∀ u, step s a = some u → Along step ok u as := by
  rw [Along]
  cases step s a with
  | none => simp
  | some u => simp

/-- A condition on the labels alone. -/
theorem along_of_forall {ok : α → Prop} {as : List α} (h : ∀ a ∈ as, ok a) (s : σ) :
    Along step (fun _ a => ok a) s as := by
  induction as generalizing s with
  | nil => exact trivial
  | cons a as ih =>
    rw [List.forall_mem_cons] at h
    exact along_cons.mpr ⟨h.1, fun u _ => ih h.2 u⟩

/-- `Along` splits at any point of a run. -/
theorem Along.append {ok : σ → α → Prop} {s u : σ} {as bs : List α}
    (h : Along step ok s (as ++ bs)) (hu : exec step s as = some u) :
    Along step ok s as ∧ Along step ok u bs := by
  induction as generalizing s with
  | nil => simp only [exec_nil, Option.some.injEq] at hu; subst hu; exact ⟨trivial, h⟩
  | cons a as ih =>
    obtain ⟨v, hv, hu'⟩ := exec_cons_eq_some.mp hu
    obtain ⟨hok, hrest⟩ := along_cons.mp h
    refine ⟨along_cons.mpr ⟨hok, ?_⟩, (ih (hrest v hv) hu').2⟩
    intro w hw
    obtain rfl : v = w := Option.some.inj (hv.symm.trans hw)
    exact (ih (hrest v hv) hu').1

/-- A condition implied by another one along the run. -/
theorem Along.mono {ok ok' : σ → α → Prop} (himp : ∀ s a, ok s a → ok' s a) {s : σ}
    {as : List α} (h : Along step ok s as) : Along step ok' s as := by
  induction as generalizing s with
  | nil => exact trivial
  | cons a as ih =>
    obtain ⟨ha, hrest⟩ := along_cons.mp h
    exact along_cons.mpr ⟨himp s a ha, fun u hu => ih (hrest u hu)⟩

/-- **Conditional invariant rule.**  If every step that `ok` allows preserves `P`, then `P`
    holds at the end of every run all of whose steps are allowed. -/
theorem exec_invariant_along {ok : σ → α → Prop} {P : σ → Prop}
    (hstep : ∀ s a t, P s → ok s a → step s a = some t → P t)
    {s t : σ} {as : List α} (hs : P s) (hok : Along step ok s as)
    (h : exec step s as = some t) : P t := by
  induction as generalizing s with
  | nil => simp only [exec_nil, Option.some.injEq] at h; exact h ▸ hs
  | cons a as ih =>
    obtain ⟨u, hu, ht⟩ := exec_cons_eq_some.mp h
    obtain ⟨ha, hrest⟩ := along_cons.mp hok
    exact ih (hstep s a u hs ha hu) (hrest u hu) ht

/-- **Invariant rule.**  What every step preserves holds at the end of every run, by induction over
    the labels; this is the rule that most results about the threads rest on. -/
theorem exec_invariant {P : σ → Prop} (hstep : ∀ s a t, P s → step s a = some t → P t)
    {s t : σ} {as : List α} (hs : P s) (h : exec step s as = some t) : P t := by
  induction as generalizing s with
  | nil => simp only [exec_nil, Option.some.injEq] at h; exact h ▸ hs
  | cons a as ih =>
    obtain ⟨u, hu, ht⟩ := exec_cons_eq_some.mp h
    exact ih (hstep s a u hs hu) ht

/-- **Two layers.**  An invariant `I` of every step carries an invariant `Q` of the steps that `ok`
    allows. -/
theorem exec_invariants_along {ok : σ → α → Prop} {I Q : σ → Prop}
    (hI : ∀ s a t, I s → step s a = some t → I t)
    (hQ : ∀ s a t, I s → Q s → ok s a → step s a = some t → Q t)
    {s t : σ} {as : List α} (hs : I s) (hq : Q s) (hok : Along step ok s as)
    (h : exec step s as = some t) : I t ∧ Q t := by
  refine exec_invariant_along (P := fun s => I s ∧ Q s) ?_ ⟨hs, hq⟩ hok h
  rintro s a t ⟨hs, hq⟩ ha hst
  exact ⟨hI s a t hs hst, hQ s a t hs hq ha hst⟩

end CPlayground.Trace
