import CPlayground.Monitor.TimerLifecycle

namespace CPlayground.Monitor.TRunner

open CPlayground.Trace

/-!
# Timer tasks: cancellation

`cancel` removes the mark of a task; `Run` looks at the mark when it pops the task.

* `cancel_stops` — a task whose id `cancel` accepts, outside a batch, is never run again and is
  disposed when it is next popped.
* `cancel_newest_runs` — `cancel` refuses the newest id, and that task runs.
-/

variable {s s' : TRunner}

/-! ### A cancelled task -/

/-- Outside the batch, without a mark and not about to be posted: how an accepted `cancel(i)` leaves
    the task `i` when `Run` is not inside a batch. -/
structure Cancelled (i : Int) (s : TRunner) : Prop where
  unmarked : i ∉ s.marks
  unbatched : ∀ t ∈ s.run.batch, t.id ≠ i
  unposted : ∀ k t, (s.posts k).pending = some t → t.id ≠ i
  old : i ≤ s.id

/-- What one step does to the task `i`: nothing, or it pops it from the heap and disposes of it. -/
def Spares (i : Int) (s s' : TRunner) : Prop :=
  (∃ new, s'.log = s.log ++ new ∧ (∀ e ∈ new, e.task.id ≠ i) ∧
      ∀ t, t.id = i → (t ∈ s'.tasks ↔ t ∈ s.tasks)) ∨
    ∃ t ∈ s.tasks, t.id = i ∧ (∀ u ∈ s'.tasks, u.id ≠ i) ∧
      s'.log = s.log ++ if t.dispose then [.disposed t] else []

variable {i : Int}

/-- A step that touches neither heap nor log spares every task. -/
theorem spares_of_eq (htasks : s'.tasks = s.tasks) (hlog : s'.log = s.log) : Spares i s s' :=
  .inl ⟨[], by rw [hlog, List.append_nil], by simp, fun t _ => by rw [htasks]⟩

/-- The threads that post keep away from the task that was cancelled: the ids of their own tasks are
    others. -/
theorem cancelled_post {k : Tid} {a : PostAct} (h : Cancelled i s) (hm : PostMove s k a s') :
    Cancelled i s' ∧ Spares i s s' := by
  -- a thread that is about to mark or to push a task has one with another id
  have hpend : ∀ pc : PostPc, (∀ t, pc.pending = some t → t.id ≠ i) → ∀ k' t,
      (Function.update s.posts k pc k').pending = some t → t.id ≠ i := by
    intro pc hpc k' t ht
    rcases eq_some_of_update ht with ⟨-, ht⟩ | ⟨-, ht⟩
    · exact hpc t ht
    · exact h.unposted k' t ht
  have hidle : ∀ pc : PostPc, pc.pending = none → ∀ t, pc.pending = some t → t.id ≠ i := by
    intro pc hpc t ht
    rw [hpc] at ht
    cases ht
  cases hm with
  -- the mark that is set is that of another task
  | marked t hpc =>
    have hti : t.id ≠ i := h.unposted k t (by rw [hpc]; rfl)
    refine ⟨⟨?_, h.unbatched, hpend _ (by rintro u ⟨⟩; exact hti), h.old⟩, spares_of_eq rfl rfl⟩
    exact fun hmem => (Finset.mem_insert.mp hmem).elim (fun heq => hti heq.symm) h.unmarked
  | pushed t hpc hlock =>
    have hti : t.id ≠ i := h.unposted k t (by rw [hpc]; rfl)
    refine ⟨⟨h.unmarked, h.unbatched, hpend _ (hidle _ rfl), h.old⟩,
      .inl ⟨[], by simp, by simp, ?_⟩⟩
    -- and so is the task that is pushed
    intro u hu
    have hne : u ≠ t := fun heq => hti (heq ▸ hu)
    simp [hne]
  | immediate | sawIdle | sawBusy | armedFirst | worked | isTop | notTop | noTop | armedTop =>
    exact ⟨⟨h.unmarked, h.unbatched, hpend _ (hidle _ rfl), h.old⟩, spares_of_eq rfl rfl⟩

/-- The batch, with the program counter of `Run` known. -/
theorem Cancelled.unbatched_at (h : Cancelled i s) {pc : RunPc} (hpc : s.run = pc) :
    ∀ t ∈ pc.batch, t.id ≠ i := by
  rw [← hpc]
  exact h.unbatched

/-- The thread of the timer finds no mark when it pops the task, and does not put it in the
    batch. -/
theorem cancelled_run {a : RunAct} (hlife : Lifecycle s) (h : Cancelled i s)
    (hm : RunMove s a s') : Cancelled i s' ∧ Spares i s s' := by
  have hnil : ∀ t ∈ ([] : List TTask), t.id ≠ i := by simp
  cases hm with
  | begun | quit | retrieved | locked | disarmed | idled | peeked | again | rearmed =>
    exact ⟨⟨h.unmarked, hnil, h.unposted, h.old⟩, spares_of_eq rfl rfl⟩
  | interrupted => exact ⟨h, spares_of_eq rfl rfl⟩
  | taken now batch top hpc htop hdue halive =>
    -- a task that goes into the batch is marked, so it is not `i`
    have hne : top.id ≠ i := fun heq => h.unmarked (heq ▸ halive)
    have hb : ∀ t ∈ batch, t.id ≠ i := h.unbatched_at hpc
    refine ⟨⟨h.unmarked, ?_, h.unposted, h.old⟩, .inl ⟨[], by simp, by simp, ?_⟩⟩
    · intro t ht
      rcases List.mem_append.mp ht with ht | ht
      · exact hb t ht
      · rw [List.mem_singleton.mp ht]; exact hne
    · intro t ht
      exact List.mem_erase_of_ne fun heq => hne (heq ▸ ht)
  | cleared now batch top hpc htop hdue hdead =>
    refine ⟨⟨h.unmarked, h.unbatched, h.unposted, h.old⟩, ?_⟩
    by_cases htopi : top.id = i
    · -- the popped task is the cancelled one
      refine .inr ⟨top, htop.1, htopi, ?_, rfl⟩
      have hnodup : (top.id :: (s.tasks.erase top ++ batch).map TTask.id).Nodup :=
        (ids_perm_erase hpc htop.1).nodup_iff.mp hlife.nodup
      intro u hu heq
      refine (List.nodup_cons.mp hnodup).1 ?_
      rw [htopi, ← heq]
      exact List.mem_map_of_mem (List.mem_append_left _ hu)
    · refine .inl ⟨_, rfl, ?_, fun t ht => List.mem_erase_of_ne fun heq => htopi (heq ▸ ht)⟩
      intro e he
      split at he
      · rw [List.mem_singleton.mp he]; exact htopi
      · cases he
  | unlocked now batch hpc | stamped batch hpc | relocked now batch hpc =>
    have hb : ∀ t ∈ batch, t.id ≠ i := h.unbatched_at hpc
    exact ⟨⟨h.unmarked, hb, h.unposted, h.old⟩, spares_of_eq rfl rfl⟩
  | ranTask batch todo t hpc =>
    have hb : ∀ t ∈ batch, t.id ≠ i := h.unbatched_at hpc
    have ht : t.id ≠ i := hb t ((hlife.todo_suffix _ _ hpc).subset List.mem_cons_self)
    refine ⟨⟨h.unmarked, hb, h.unposted, h.old⟩, .inl ⟨[.ran t], rfl, ?_, fun _ _ => Iff.rfl⟩⟩
    intro e he
    rw [List.mem_singleton.mp he]
    exact ht
  | repushed now t todo hpc hrep =>
    have hb : ∀ u ∈ t :: todo, u.id ≠ i := h.unbatched_at hpc
    refine ⟨⟨h.unmarked, fun u hu => hb u (List.mem_cons_of_mem _ hu), h.unposted, h.old⟩,
      .inl ⟨[], by simp, by simp, ?_⟩⟩
    intro u hu
    have hne : u ≠ { t with runat := now + t.duration.toNat } := by
      rintro rfl
      exact hb t List.mem_cons_self hu
    simp [hne]
  | dropped now t todo hpc hrep =>
    have hb : ∀ u ∈ t :: todo, u.id ≠ i := h.unbatched_at hpc
    refine ⟨⟨fun hmem => h.unmarked (Finset.mem_of_mem_erase hmem),
      fun u hu => hb u (List.mem_cons_of_mem _ hu), h.unposted, h.old⟩,
      .inl ⟨_, rfl, ?_, fun _ _ => Iff.rfl⟩⟩
    intro e he
    split at he
    · rw [List.mem_singleton.mp he]; exact hb t List.mem_cons_self
    · cases he

/-- **A cancelled task stays cancelled** in every move: it is left in the heap, or it is popped and
    disposed of.  As the numbers do not wrap around, no new task gets its number. -/
theorem cancelled_move {a : Act} (ha : Allocated s) (hlife : Lifecycle s) (h : Cancelled i s)
    (hwrap : NoWrap s a) (hm : Move s a s') : Cancelled i s' ∧ Spares i s s' := by
  cases hm with
  | called k task hpc hrunat hcall =>
    -- the new id is above every id returned so far
    have hnext := nextId_eq ha.id_nonneg (hwrap hcall)
    refine ⟨⟨h.unmarked, h.unbatched, ?_, ?_⟩, spares_of_eq rfl rfl⟩
    · intro k' t ht
      rcases eq_some_of_update ht with ⟨-, ht⟩ | ⟨-, ht⟩
      · cases ht
        show nextId s.id ≠ i
        linarith [h.old]
      · exact h.unposted k' t ht
    · show i ≤ nextId s.id
      linarith [h.old]
  | post k a s' hm => exact cancelled_post h hm
  | run a s' hm => exact cancelled_run hlife h hm
  | cancelled id hrange =>
    exact ⟨⟨fun hmem => h.unmarked (Finset.mem_of_mem_erase hmem), h.unbatched, h.unposted, h.old⟩,
      spares_of_eq rfl rfl⟩
  | ignored id hrange => exact ⟨h, spares_of_eq rfl rfl⟩
  | woken | ticked | expired | timerRead | forwarded | stopped =>
    exact ⟨⟨h.unmarked, h.unbatched, h.unposted, h.old⟩, spares_of_eq rfl rfl⟩

/-- What has happened to the task `i` since a moment at which the heap was `tasks` and the log
    `log`: it has not run, and a task of that id which was in the heap is still there without any
    callback, or was popped and disposed. -/
structure Retired (i : Int) (tasks : List TTask) (log : List Event) (s : TRunner)
    (extra : List Event) : Prop where
  log_eq : s.log = log ++ extra
  not_run : ∀ u, .ran u ∈ extra → u.id ≠ i
  disposal : ∀ t ∈ tasks, t.id = i →
    (t ∈ s.tasks ∧ ∀ e ∈ extra, e.task.id ≠ i) ∨
      ((∀ u ∈ s.tasks, u.id ≠ i) ∧
        extra.filter (fun e => decide (e.task.id = i)) = if t.dispose then [.disposed t] else [])

/-- One step extends the history of a retired task: it stays where it is, or is thrown away, and it
    is not run. -/
theorem retired_step {tasks : List TTask} {log extra : List Event} (hlife : Lifecycle s)
    (h : Retired i tasks log s extra) (hsp : Spares i s s') :
    ∃ extra', Retired i tasks log s' extra' := by
  rcases hsp with ⟨new, hlog, hnew, hmem⟩ | ⟨t₀, ht₀, hid₀, hgone, hlog⟩
  · refine ⟨extra ++ new, ⟨by rw [hlog, h.log_eq, List.append_assoc], ?_, ?_⟩⟩
    · intro u hu
      rcases List.mem_append.mp hu with hu | hu
      · exact h.not_run u hu
      · exact hnew _ hu
    · intro t ht hti
      rcases h.disposal t ht hti with ⟨hin, hext⟩ | ⟨hout, hext⟩
      · refine .inl ⟨(hmem t hti).mpr hin, ?_⟩
        intro e he
        rcases List.mem_append.mp he with he | he
        · exact hext e he
        · exact hnew e he
      · refine .inr ⟨fun u hu hui => hout u ((hmem u hui).mp hu) hui, ?_⟩
        have hnil : new.filter (fun e => decide (e.task.id = i)) = [] :=
          List.filter_eq_nil_iff.mpr fun e he => by simpa using hnew e he
        rw [List.filter_append, hnil, List.append_nil, hext]
  · refine ⟨extra ++ if t₀.dispose then [.disposed t₀] else [],
      ⟨by rw [hlog, h.log_eq, List.append_assoc], ?_, ?_⟩⟩
    · intro u hu
      rcases List.mem_append.mp hu with hu | hu
      · exact h.not_run u hu
      · split at hu
        · cases List.mem_singleton.mp hu
        · cases hu
    · intro t ht hti
      rcases h.disposal t ht hti with ⟨hin, hext⟩ | ⟨hout, -⟩
      · -- both are in the heap under the same id, so the popped task is this one
        have hnodup : (s.tasks.map TTask.id).Nodup := by
          have hn := hlife.nodup
          rw [ids, List.map_append] at hn
          exact (List.nodup_append.mp hn).1
        have heq : t₀ = t := List.inj_on_of_nodup_map hnodup ht₀ hin (hid₀.trans hti.symm)
        subst heq
        refine .inr ⟨hgone, ?_⟩
        have hnil : extra.filter (fun e => decide (e.task.id = i)) = [] :=
          List.filter_eq_nil_iff.mpr fun e he => by simpa using hext e he
        rw [List.filter_append, hnil, List.nil_append]
        split
        · simp [Event.task, hid₀]
        · rfl
      · exact absurd hid₀ (hout t₀ ht₀)

/-- **Cancellation.**  Let `post` have returned `id`, let `Run` not be inside a batch, and let `id`
    be below the newest id.  After `cancel(id)`, however the run goes on, the task is never run
    again; it stays in the heap without any callback until it is popped, and is then disposed. -/
theorem cancel_stops (clock : ℚ) (acts₁ acts₂ : List Act) (id : Int) (s₁ s₂ s₃ : TRunner)
    (h₁ : exec step (init clock) acts₁ = some s₁) (hret : id ∈ s₁.returned)
    (hbatch : s₁.run.inBatch = false) (hid : id < s₁.id)
    (h₂ : s₁.step (.cancel id) = some s₂) (h₃ : exec step s₂ acts₂ = some s₃)
    (hposts : (acts₁ ++ acts₂).countP Act.allocates < 2 ^ 31) :
    ∃ extra, s₃.log = s₁.log ++ extra ∧ (∀ u, .ran u ∈ extra → u.id ≠ id) ∧
      ∀ t ∈ s₁.tasks, t.id = id →
        (t ∈ s₃.tasks ∧ ∀ e ∈ extra, e.task.id ≠ id) ∨
          ((∀ u ∈ s₃.tasks, u.id ≠ id) ∧
            extra.filter (fun e => decide (e.task.id = id))
              = if t.dispose then [.disposed t] else []) := by
  have hfull : exec step (init clock) (acts₁ ++ .cancel id :: acts₂) = some s₃ :=
    exec_append_eq_some.mpr ⟨s₁, h₁, exec_cons_eq_some.mpr ⟨s₂, h₂, h₃⟩⟩
  have hwrap : Along step NoWrap (init clock) (acts₁ ++ .cancel id :: acts₂) := by
    refine along_noWrap _ (le_refl _) ?_
    have hc : (acts₁ ++ .cancel id :: acts₂).countP Act.allocates
        = (acts₁ ++ acts₂).countP Act.allocates := by simp [Act.allocates]
    show (0 : Int) + _ < _
    rw [hc]
    omega
  obtain ⟨hwrap₁, hwrap'⟩ := hwrap.append h₁
  have hwrap₂ := (along_cons.mp hwrap').2 s₂ h₂
  obtain ⟨halloc₁, hlife₁⟩ := lifecycle_of_exec h₁ hwrap₁
  obtain ⟨hpos, hle, hpend⟩ := halloc₁.returned id hret
  -- the accepted cancel removes the mark and nothing else
  have hs₂ : s₂ = { s₁ with marks := s₁.marks.erase id } := by
    rw [step, if_pos ⟨hpos, hid⟩] at h₂
    exact (Option.some.inj h₂).symm
  have hok₂ := (along_cons.mp hwrap').1
  have halloc₂ : Allocated s₂ := allocated_move halloc₁ hok₂ (move_of_step h₂)
  have hlife₂ : Lifecycle s₂ := lifecycle_move hlife₁ halloc₁ hok₂ (move_of_step h₂)
  have hcanc₂ : Cancelled id s₂ := by
    subst hs₂
    refine ⟨Finset.notMem_erase _ _, ?_, fun k t ht => hpend k t (PostPc.task_of_pending ht), hle⟩
    intro t ht
    cases hrun : s₁.run <;> simp_all [RunPc.batch, RunPc.inBatch]
  have hret₂ : Retired id s₁.tasks s₁.log s₂ [] := by
    subst hs₂
    exact ⟨by simp, by simp, fun t ht _ => .inl ⟨ht, by simp⟩⟩
  have hinv : Allocated s₃ ∧ Lifecycle s₃ ∧ Cancelled id s₃ ∧
      ∃ extra, Retired id s₁.tasks s₁.log s₃ extra := by
    refine exec_invariant_along
      (P := fun s => Allocated s ∧ Lifecycle s ∧ Cancelled id s ∧
        ∃ extra, Retired id s₁.tasks s₁.log s extra)
      ?_ ⟨halloc₂, hlife₂, hcanc₂, [], hret₂⟩ hwrap₂ h₃
    rintro s a t ⟨hal, hl, hc, extra, hr⟩ ha hst
    have hm := move_of_step hst
    obtain ⟨hc', hsp⟩ := cancelled_move hal hl hc ha hm
    exact ⟨allocated_move hal ha hm, lifecycle_move hl hal ha hm, hc', retired_step hl hr hsp⟩
  obtain ⟨-, -, -, extra, hr⟩ := hinv
  exact ⟨extra, hr.log_eq, hr.not_run, hr.disposal⟩

/-- Of two posted tasks the first is cancelled: the next wake-up disposes of it without a run. -/
theorem cancel_stops_first_of_two :
    ∃ s₁ s₂ s₃, exec step (init 0) (.run .begin :: (postOnce 0 ++ postOnce 1)) = some s₁ ∧
      s₁.step (.cancel 1) = some s₂ ∧
      exec step s₂ [.run .retrieve, .run .lock, .run (.collect { onceTask with id := 1 })]
        = some s₃ ∧
      s₃.log.countP (Event.isDisposal 1) = 1 ∧
      ∃ extra, s₃.log = s₁.log ++ extra ∧ ∀ u, .ran u ∈ extra → u.id ≠ 1 := by
  obtain ⟨s₁, h₁, hp⟩ := exists_of_exec_any (s := init 0)
    (p := fun s => decide (1 ∈ s.returned) && !s.run.inBatch && decide (1 < s.id) &&
      (exec step s [.cancel 1, .run .retrieve, .run .lock,
        .run (.collect { onceTask with id := 1 })]).any
          fun t => t.log.countP (Event.isDisposal 1) == 1)
    (show (exec step _ (.run .begin :: (postOnce 0 ++ postOnce 1))).any _ = true by
      decide +kernel)
  simp only [Bool.and_eq_true, decide_eq_true_eq, Bool.not_eq_true'] at hp
  obtain ⟨⟨⟨hret, hbatch⟩, hid⟩, hrest⟩ := hp
  obtain ⟨s₃, h₃, hlog⟩ := exists_of_exec_any hrest
  obtain ⟨s₂, h₂, h₃⟩ := exec_cons_eq_some.mp h₃
  obtain ⟨extra, hextra, hrun, -⟩ :=
    cancel_stops 0 _ _ 1 s₁ s₂ s₃ h₁ hret hbatch hid h₂ h₃ (by decide)
  exact ⟨s₁, s₂, s₃, h₁, h₂, h₃, by simpa using hlog, extra, hextra, hrun⟩

/-- **The newest id cannot be cancelled.**  `post` returned 1 and `Run` is blocked in `poll`, but
    `cancel(1)` compares with `id_ = 1` and does nothing: the task runs afterwards. -/
theorem cancel_newest_runs :
    ∃ s₁ s₂ s₃, exec step (init 0) (.run .begin :: postOnce 0) = some s₁ ∧
      1 ∈ s₁.returned ∧ s₁.run.inBatch = false ∧ s₁.log = [] ∧
      s₁.step (.cancel 1) = some s₂ ∧ exec step s₂ (runOnce 1) = some s₃ ∧
      ∃ u, .ran u ∈ s₃.log ∧ u.id = 1 := by
  obtain ⟨s₁, h₁, hp⟩ := exists_of_exec_any (s := init 0)
    (p := fun s => decide (1 ∈ s.returned) && !s.run.inBatch && s.log.isEmpty &&
      (exec step s (.cancel 1 :: runOnce 1)).any fun t => t.log.any (Event.isOnceRun 1))
    (show (exec step _ (.run .begin :: postOnce 0)).any _ = true by decide +kernel)
  simp only [Bool.and_eq_true, decide_eq_true_eq, Bool.not_eq_true', List.isEmpty_iff] at hp
  obtain ⟨⟨⟨hret, hbatch⟩, hlog⟩, hrest⟩ := hp
  obtain ⟨s₃, h₃, hran⟩ := exists_of_exec_any hrest
  obtain ⟨s₂, h₂, h₃⟩ := exec_cons_eq_some.mp h₃
  obtain ⟨e, he, hrun⟩ := List.any_eq_true.mp hran
  cases e with
  | ran u =>
    simp only [Event.isOnceRun, Bool.and_eq_true, beq_iff_eq] at hrun
    exact ⟨s₁, s₂, s₃, h₁, hret, hbatch, hlog, h₂, h₃, u, he, hrun.1⟩
  | disposed u => cases hrun

end CPlayground.Monitor.TRunner
