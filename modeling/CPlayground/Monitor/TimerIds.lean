import CPlayground.Monitor.TimerRunner
import Mathlib.Tactic.Linarith

namespace CPlayground.Monitor.TRunner

open CPlayground.Trace

/-!
# Timer tasks: ids

`tRunner::post` takes the next value of the 32-bit counter `id_` for each task.

* `along_noWrap` — with fewer than `2 ^ 31` posts the counter never wraps (`NoWrap`).
* `allocated_move` — an id is then handed out once: to one thread inside `post`, and to the
  caller it returns to.
-/

/-! ### The counter -/

/-- The step is a `post` that allocates an id. -/
def Act.allocates : Act → Bool
  | .call _ task => task.callable
  | _ => false

/-- A `post` that allocates an id does so below the top of the `int` range. -/
def NoWrap (s : TRunner) : Act → Prop
  | .call _ task => task.callable = true → s.id < 2 ^ 31 - 1
  | _ => True

variable {s s' : TRunner}

/-- Below the top of the `int` range the id counter just counts. -/
theorem nextId_eq {i : Int} (h0 : 0 ≤ i) (h1 : i < 2 ^ 31 - 1) : nextId i = i + 1 := by
  rw [nextId]
  apply Int.bmod_eq_of_le <;> omega

/-- The steps behind the allocation leave the counter alone. -/
theorem id_of_postMove {k : Tid} {a : PostAct} (hm : PostMove s k a s') : s'.id = s.id := by
  cases hm <;> rfl

/-- So do the steps of `Run`. -/
theorem id_of_runMove {a : RunAct} (hm : RunMove s a s') : s'.id = s.id := by
  cases hm <;> rfl

/-- The id counter counts the posts. -/
theorem id_of_move {a : Act} (hm : Move s a s') (h0 : 0 ≤ s.id) (hwrap : NoWrap s a) :
    s'.id = s.id + if a.allocates then 1 else 0 := by
  cases hm with
  | called k task hpc hrunat hcall =>
    show nextId s.id = s.id + if task.callable then 1 else 0
    rw [nextId_eq h0 (hwrap hcall), hcall, if_pos rfl]
  | woken k task hcall =>
    show s.id = s.id + if task.callable then 1 else 0
    rw [hcall]
    simp
  | post k a s' hm => simp [Act.allocates, id_of_postMove hm]
  | run a s' hm => simp [Act.allocates, id_of_runMove hm]
  | cancelled | ignored | ticked | expired | timerRead | forwarded | stopped =>
    simp [Act.allocates]

/-- With fewer than `2 ^ 31` posts in all, no post of the run wraps the id counter. -/
theorem along_noWrap (acts : List Act) {s : TRunner} (h0 : 0 ≤ s.id)
    (hcount : s.id + acts.countP Act.allocates < 2 ^ 31) : Along step NoWrap s acts := by
  induction acts generalizing s with
  | nil => exact along_nil _ _
  | cons a acts ih =>
    rw [List.countP_cons] at hcount
    have hok : NoWrap s a := by
      cases a with
      | call k task =>
        intro hcall
        simp only [Act.allocates, hcall, if_true] at hcount
        push_cast at hcount
        omega
      | _ => trivial
    refine along_cons.mpr ⟨hok, fun u hu => ?_⟩
    have hid := id_of_move (move_of_step hu) h0 hok
    apply ih
    · split at hid <;> omega
    · rw [hid]
      split at hcount <;> split <;> simp_all
      omega

/-! ### Every id is handed out once -/

/-- The task of a thread inside `post`. -/
def PostPc.task : PostPc → Option TTask
  | .marking t | .pushing t | .testing t | .first t | .working t | .peeking t | .arming t => some t
  | .outside | .undefined => none

/-- The threads inside `post` and the callers it returned to have different ids, all of which the
    counter has come to. -/
structure Allocated (s : TRunner) : Prop where
  id_nonneg : 0 ≤ s.id
  range : ∀ k t, (s.posts k).task = some t → 0 < t.id ∧ t.id ≤ s.id
  inj : ∀ k k' t t', (s.posts k).task = some t → (s.posts k').task = some t' →
    t.id = t'.id → k = k'
  returned : ∀ r ∈ s.returned, 0 < r ∧ r ≤ s.id ∧ ∀ k t, (s.posts k).task = some t → t.id ≠ r

/-- What a thread holds after one thread has moved: the mover at its new place, the others as
    before. -/
theorem eq_some_of_update {α : Type} {f : PostPc → Option α} {posts : Tid → PostPc} {k k' : Tid}
    {pc : PostPc} {x : α} (h : f (Function.update posts k pc k') = some x) :
    (k' = k ∧ f pc = some x) ∨ (k' ≠ k ∧ f (posts k') = some x) := by
  by_cases hk : k' = k
  · rw [hk, Function.update_self] at h
    exact .inl ⟨hk, h⟩
  · rw [Function.update_of_ne hk] at h
    exact .inr ⟨hk, h⟩

/-- A call of `post` hands out the next id, which nobody has as long as the counter has not wrapped
    around. -/
theorem allocated_called (h : Allocated s) {k : Tid} {task : TTask}
    (hwrap : s.id < 2 ^ 31 - 1) :
    Allocated { s with id := nextId s.id,
                       posts := Function.update s.posts k
                         (.marking { task with id := nextId s.id }) } := by
  have hnext := nextId_eq h.id_nonneg hwrap
  have h0 := h.id_nonneg
  have htask : ∀ k' t,
      (Function.update s.posts k (.marking { task with id := nextId s.id }) k').task = some t →
        (k' = k ∧ t.id = s.id + 1) ∨ (s.posts k').task = some t := by
    intro k' t ht
    rcases eq_some_of_update ht with ⟨hk, ht⟩ | ⟨-, ht⟩
    · cases ht
      exact .inl ⟨hk, hnext⟩
    · exact .inr ht
  refine ⟨?_, ?_, ?_, ?_⟩
  · show 0 ≤ nextId s.id
    linarith
  · intro k' t ht
    show 0 < t.id ∧ t.id ≤ nextId s.id
    rcases htask k' t ht with ⟨-, ht⟩ | ht
    · constructor <;> linarith
    · have hrange := h.range k' t ht
      constructor <;> linarith [hrange.1, hrange.2]
  · intro k₁ k₂ t₁ t₂ h₁ h₂ heq
    -- the new id is above the others
    rcases htask k₁ t₁ h₁ with ⟨rfl, e₁⟩ | e₁ <;> rcases htask k₂ t₂ h₂ with ⟨rfl, e₂⟩ | e₂
    · rfl
    · linarith [(h.range k₂ t₂ e₂).2]
    · linarith [(h.range k₁ t₁ e₁).2]
    · exact h.inj k₁ k₂ t₁ t₂ e₁ e₂ heq
  · intro r hr
    obtain ⟨hpos, hle, hne⟩ := h.returned r hr
    refine ⟨hpos, ?_, ?_⟩
    · show r ≤ nextId s.id
      linarith
    · intro k' t ht
      rcases htask k' t ht with ⟨-, ht⟩ | ht
      · rw [ht]
        linarith
      · exact hne k' t ht

/-- A thread moves on with its task, and with the id of it. -/
theorem Allocated.keep (h : Allocated s) {k : Tid} {t : TTask} {pc : PostPc}
    (hk : (s.posts k).task = some t) (hpc : pc.task = some t) (hid : s'.id = s.id)
    (hret : s'.returned = s.returned) (hposts : s'.posts = Function.update s.posts k pc) :
    Allocated s' := by
  have htask : ∀ k' u, (s'.posts k').task = some u → (s.posts k').task = some u := by
    intro k' u hu
    rw [hposts] at hu
    rcases eq_some_of_update hu with ⟨hmover, hu'⟩ | ⟨-, hu'⟩
    · rw [hmover, hk, ← hpc, hu']
    · exact hu'
  refine ⟨hid ▸ h.id_nonneg, ?_, ?_, ?_⟩
  · intro k' u hu
    rw [hid]
    exact h.range k' u (htask k' u hu)
  · intro k₁ k₂ t₁ t₂ h₁ h₂
    exact h.inj k₁ k₂ t₁ t₂ (htask k₁ t₁ h₁) (htask k₂ t₂ h₂)
  · intro r hr
    rw [hret] at hr
    obtain ⟨hpos, hle, hne⟩ := h.returned r hr
    exact ⟨hpos, hid ▸ hle, fun k' u hu => hne k' u (htask k' u hu)⟩

/-- A thread leaves `post`, and returns its id or nothing; nobody else has a task with this id. -/
theorem Allocated.leave (h : Allocated s) {k : Tid} {t : TTask} {pc : PostPc}
    (hk : (s.posts k).task = some t) (hpc : pc.task = none) (hid : s'.id = s.id)
    (hret : ∀ r ∈ s'.returned, r ∈ s.returned ∨ r = t.id)
    (hposts : s'.posts = Function.update s.posts k pc) : Allocated s' := by
  -- the thread has no task any more, and the others have the ones they had
  have htask : ∀ k' u, (s'.posts k').task = some u → k' ≠ k ∧ (s.posts k').task = some u := by
    intro k' u hu
    rw [hposts] at hu
    rcases eq_some_of_update hu with ⟨-, hu⟩ | hu
    · rw [hpc] at hu
      cases hu
    · exact hu
  refine ⟨hid ▸ h.id_nonneg, ?_, ?_, ?_⟩
  · intro k' u hu
    rw [hid]
    exact h.range k' u (htask k' u hu).2
  · intro k₁ k₂ t₁ t₂ h₁ h₂
    exact h.inj k₁ k₂ t₁ t₂ (htask k₁ t₁ h₁).2 (htask k₂ t₂ h₂).2
  · intro r hr
    rw [hid]
    rcases hret r hr with hr | rfl
    · obtain ⟨hpos, hle, hne⟩ := h.returned r hr
      exact ⟨hpos, hle, fun k' u hu => hne k' u (htask k' u hu).2⟩
    -- the id of this task is returned, and no other thread has a task with it
    · obtain ⟨hpos, hle⟩ := h.range k t hk
      refine ⟨hpos, hle, fun k' u hu heq => ?_⟩
      obtain ⟨hne, hu⟩ := htask k' u hu
      exact hne (h.inj k' k u t hu hk heq)

/-- The later steps of `post` carry the id with them, and return it. -/
theorem allocated_post {k : Tid} {a : PostAct} (h : Allocated s) (hm : PostMove s k a s') :
    Allocated s' := by
  have happ : ∀ t : TTask, ∀ r ∈ s.returned ++ [t.id], r ∈ s.returned ∨ r = t.id := by simp
  have hat : ∀ pc : PostPc, s.posts k = pc → (s.posts k).task = pc.task := fun pc hpc => by rw [hpc]
  cases hm with
  | marked t hpc | pushed t hpc | sawIdle t hpc | sawBusy t hpc | armedFirst t hpc
  | isTop t top hpc => exact h.keep (hat _ hpc) rfl rfl rfl rfl
  | immediate t hpc | worked t hpc | notTop t top hpc | armedTop t hpc =>
    exact h.leave (hat _ hpc) rfl rfl (happ t) rfl
  | noTop t hpc hempty => exact h.leave (hat _ hpc) rfl rfl (fun r hr => .inl hr) rfl

/-- `Run` does not touch the threads that post. -/
theorem posts_of_runMove {a : RunAct} (hm : RunMove s a s') :
    s'.posts = s.posts ∧ s'.returned = s.returned := by
  cases hm <;> exact ⟨rfl, rfl⟩

/-- **Every move keeps the ids apart**, if the counter does not wrap around. -/
theorem allocated_move {a : Act} (h : Allocated s) (hwrap : NoWrap s a) (hm : Move s a s') :
    Allocated s' := by
  cases hm with
  | called k task hpc hrunat hcall => exact allocated_called h (hwrap hcall)
  | post k a s' hm => exact allocated_post h hm
  | run a s' hm =>
    obtain ⟨hposts, hret⟩ := posts_of_runMove hm
    have hid := id_of_runMove hm
    exact ⟨hid ▸ h.id_nonneg, by rw [hposts, hid]; exact h.range, by rw [hposts]; exact h.inj,
      by rw [hposts, hid, hret]; exact h.returned⟩
  | woken | cancelled | ignored | ticked | expired | timerRead | forwarded | stopped =>
    exact ⟨h.id_nonneg, h.range, h.inj, h.returned⟩

/-- No id was handed out. -/
theorem allocated_init (clock : ℚ) : Allocated (init clock) where
  id_nonneg := le_refl _
  range := by simp [init, PostPc.task]
  inj := by simp [init, PostPc.task]
  returned := by simp [init]

end CPlayground.Monitor.TRunner
