import CPlayground.Monitor.TimerIds

namespace CPlayground.Monitor.TRunner

open CPlayground.Trace

/-!
# Timer tasks: the life cycle

A task moves from the thread that posts it to the heap, from the heap to the batch `Run` is
processing, and from there back to the heap or out of the runner.  `Lifecycle` says that an id is
never in two of these places and relates the places to the marks and to the callbacks made so far.
Every step keeps it as long as ids are handed out once (`Allocated`).

* `timer_lifecycle` — no id twice in the heap and the batch, a once task runs at most once, dispose
  is called at most once and nothing runs after it, every mark belongs to a task in the runner.
-/

/-! ### The places of a task -/

/-- The tasks of the batch `Run` is processing. -/
def RunPc.batch : RunPc → List TTask
  | .collecting _ batch => batch
  | .running batch _    => batch
  | .stamped _ batch    => batch
  | .finishing _ todo   => todo
  | _                   => []

/-- The tasks of the batch that have not been run since they were collected. -/
def RunPc.unrun : RunPc → List TTask
  | .collecting _ batch => batch
  | .running _ todo     => todo
  | _                   => []

/-- `Run` is between the collection of a batch and the end of its processing. -/
def RunPc.inBatch : RunPc → Bool
  | .collecting .. | .running .. | .stamped .. | .finishing .. => true
  | _ => false

/-- The task of a `post` that has allocated its id and not pushed it yet. -/
def PostPc.pending : PostPc → Option TTask
  | .marking t => some t
  | .pushing t => some t
  | _          => none

/-- A task that is still to be pushed is in the hands of its thread. -/
theorem PostPc.task_of_pending {pc : PostPc} {t : TTask} (h : pc.pending = some t) :
    pc.task = some t := by
  cases pc <;> first | exact h | cases h

/-- The ids in the heap together with the batch being processed. -/
def ids (s : TRunner) : List Int := (s.tasks ++ s.run.batch).map TTask.id

/-- `f` may come after `e` in the log: nothing about a task follows its disposal, and no once task
    runs after an earlier run of the same id. -/
def Follows : Event → Event → Prop
  | .disposed t, f          => f.task.id ≠ t.id
  | .ran u,      .ran t     => t.repeated = false → u.id ≠ t.id
  | .ran _,      .disposed _ => True

/-- The life-cycle invariant.  The first three fields keep the places of an id apart; the others say
    what the callbacks so far mean for them, and that every mark belongs to a task that is on its
    way or there. -/
structure Lifecycle (s : TRunner) : Prop where
  nodup : s.ids.Nodup
  bound : ∀ i ∈ s.ids, i ≤ s.id
  pending_fresh : ∀ k t, (s.posts k).pending = some t → t.id ∉ s.ids
  log_bound : ∀ e ∈ s.log, e.task.id ≤ s.id
  log_pending : ∀ e ∈ s.log, ∀ k t, (s.posts k).pending = some t → e.task.id ≠ t.id
  disposed_gone : ∀ t, .disposed t ∈ s.log → t.id ∉ s.ids
  once_waits : ∀ t ∈ s.tasks ++ s.run.unrun, t.repeated = false →
    ∀ u, .ran u ∈ s.log → u.id ≠ t.id
  todo_suffix : ∀ batch todo, s.run = .running batch todo → todo <:+ batch
  log_order : s.log.Pairwise Follows
  marks_live : ∀ i ∈ s.marks, i ∈ s.ids ∨ ∃ k t, (s.posts k).pending = some t ∧ t.id = i

variable {s s' : TRunner}

/-- No task was posted. -/
theorem lifecycle_init (clock : ℚ) : Lifecycle (init clock) where
  nodup := List.nodup_nil
  bound := by simp [ids, init, RunPc.batch]
  pending_fresh := by simp [init, PostPc.pending]
  log_bound := by simp [init]
  log_pending := by simp [init]
  disposed_gone := by simp [init]
  once_waits := by simp [init]
  todo_suffix := by simp [init]
  log_order := List.Pairwise.nil
  marks_live := by simp [init]

/-- The ids, with the program counter of `Run` known. -/
theorem ids_of_run {pc : RunPc} (h : s.run = pc) : s.ids = (s.tasks ++ pc.batch).map TTask.id := by
  rw [ids, h]

/-- Moving a thread without changing what it has pending changes no pending task. -/
theorem pending_update {posts : Tid → PostPc} {k : Tid} {pc : PostPc}
    (h : pc.pending = (posts k).pending) (k' : Tid) :
    (Function.update posts k pc k').pending = (posts k').pending := by
  by_cases hk : k' = k
  · subst hk; rw [Function.update_self, h]
  · rw [Function.update_of_ne hk]

/-- **Frame rule.**  A step that only permutes the places of the tasks, makes no callback and adds
    no mark keeps the life-cycle invariant. -/
theorem Lifecycle.frame (h : Lifecycle s) (hids : s'.ids.Perm s.ids) (hid : s'.id = s.id)
    (hpend : ∀ k, (s'.posts k).pending = (s.posts k).pending) (hlog : s'.log = s.log)
    (hmarks : s'.marks ⊆ s.marks)
    (honce : ∀ t ∈ s'.tasks ++ s'.run.unrun, t.repeated = false → t ∈ s.tasks ++ s.run.unrun)
    (hsuffix : ∀ batch todo, s'.run = .running batch todo → todo <:+ batch) : Lifecycle s' where
  nodup := hids.nodup_iff.mpr h.nodup
  bound := fun i hi => hid ▸ h.bound i (hids.mem_iff.mp hi)
  pending_fresh := fun k t ht hmem => h.pending_fresh k t (hpend k ▸ ht) (hids.mem_iff.mp hmem)
  log_bound := fun e he => hid ▸ h.log_bound e (hlog ▸ he)
  log_pending := fun e he k t ht => h.log_pending e (hlog ▸ he) k t (hpend k ▸ ht)
  disposed_gone := fun t ht hmem => h.disposed_gone t (hlog ▸ ht) (hids.mem_iff.mp hmem)
  once_waits := fun t ht hrep u hu => h.once_waits t (honce t ht hrep) hrep u (hlog ▸ hu)
  todo_suffix := hsuffix
  log_order := hlog ▸ h.log_order
  marks_live := by
    intro i hi
    rcases h.marks_live i (hmarks hi) with hmem | ⟨k, t, ht, rfl⟩
    · exact .inl (hids.mem_iff.mpr hmem)
    · exact .inr ⟨k, t, (hpend k).trans ht, rfl⟩

/-- What the invariant says of a state apart from the two program counters. -/
def body (s : TRunner) : List TTask × Int × List Event × Finset Int :=
  (s.tasks, s.id, s.log, s.marks)

/-- A thread whose task is in the heap goes on. -/
theorem Lifecycle.moved (h : Lifecycle s) {k : Tid} {pc : PostPc}
    (hold : (s.posts k).pending = none) (hnew : pc.pending = none) (hbody : s'.body = s.body)
    (hrun : s'.run = s.run) (hposts : s'.posts = Function.update s.posts k pc) :
    Lifecycle s' := by
  simp only [body, Prod.mk.injEq] at hbody
  obtain ⟨htasks, hid, hlog, hmarks⟩ := hbody
  refine h.frame (by rw [ids, htasks, hrun]; exact .refl _) hid ?_ hlog
    (hmarks ▸ Finset.Subset.refl _) ?_ (hrun ▸ h.todo_suffix)
  · rw [hposts]
    exact pending_update (hnew.trans hold.symm)
  · rw [htasks, hrun]
    exact fun _ hu _ => hu

/-- `Run` only moves its program counter, and has no task of its batch to run. -/
theorem Lifecycle.quiet (h : Lifecycle s) (hbody : s'.body = s.body) (hposts : s'.posts = s.posts)
    (hbatch : s'.run.batch = s.run.batch) (hunrun' : s'.run.unrun = []) : Lifecycle s' := by
  simp only [body, Prod.mk.injEq] at hbody
  obtain ⟨htasks, hid, hlog, hmarks⟩ := hbody
  refine h.frame (by rw [ids, ids, htasks, hbatch]) hid (fun k => by rw [hposts]) hlog
    (hmarks ▸ Finset.Subset.refl _) ?_ ?_
  · intro t ht _
    rw [htasks, hunrun', List.append_nil] at ht
    exact List.mem_append_left _ ht
  · intro batch todo hrun
    rw [hrun] at hunrun'
    have htodo : todo = [] := hunrun'
    rw [htodo]
    exact List.nil_suffix

/-- **Removal rule.**  A step that takes one task out of the runner, disposes of it if it has a
    callback and leaves no mark of it keeps the life-cycle invariant. -/
theorem Lifecycle.remove (h : Lifecycle s) (t : TTask) (hids : s.ids.Perm (t.id :: s'.ids))
    (hid : s'.id = s.id) (hposts : s'.posts = s.posts)
    (hlog : s'.log = s.log ++ if t.dispose then [.disposed t] else [])
    (hmarks : s'.marks ⊆ s.marks) (hunmark : t.id ∉ s'.marks)
    (honce : ∀ u ∈ s'.tasks ++ s'.run.unrun, u ∈ s.tasks ++ s.run.unrun)
    (hsuffix : ∀ batch todo, s'.run = .running batch todo → todo <:+ batch) : Lifecycle s' := by
  have hsub : ∀ i ∈ s'.ids, i ∈ s.ids := fun i hi => hids.mem_iff.mpr (List.mem_cons_of_mem _ hi)
  have htmem : t.id ∈ s.ids := hids.mem_iff.mpr List.mem_cons_self
  have hnodup : (t.id :: s'.ids).Nodup := hids.nodup_iff.mp h.nodup
  -- the log grows by the disposal of `t` at most
  have hnew : ∀ e ∈ s'.log, e ∈ s.log ∨ e = .disposed t := by
    intro e he
    rw [hlog, List.mem_append] at he
    rcases he with he | he
    · exact .inl he
    · split at he
      · exact .inr (List.mem_singleton.mp he)
      · cases he
  refine
    { nodup := (List.nodup_cons.mp hnodup).2
      bound := fun i hi => hid ▸ h.bound i (hsub i hi)
      pending_fresh := fun k u hu hmem => h.pending_fresh k u (hposts ▸ hu) (hsub _ hmem)
      log_bound := ?_
      log_pending := ?_
      disposed_gone := ?_
      once_waits := ?_
      todo_suffix := hsuffix
      log_order := ?_
      marks_live := ?_ }
  · intro e he
    rcases hnew e he with he | rfl
    · exact hid ▸ h.log_bound e he
    · exact hid ▸ h.bound t.id htmem
  · intro e he k u hu
    rw [hposts] at hu
    rcases hnew e he with he | rfl
    · exact h.log_pending e he k u hu
    · exact fun heq => h.pending_fresh k u hu (heq ▸ htmem)
  · intro u hu hmem
    rcases hnew _ hu with hu | hu
    · exact h.disposed_gone u hu (hsub _ hmem)
    · cases hu; exact (List.nodup_cons.mp hnodup).1 hmem
  · intro u hu hrep v hv
    rcases hnew _ hv with hv | hv
    · exact h.once_waits u (honce u hu) hrep v hv
    · cases hv
  · rw [hlog]
    split
    · refine List.pairwise_append.mpr ⟨h.log_order, List.pairwise_singleton _ _, ?_⟩
      intro e he f hf
      rw [List.mem_singleton] at hf
      subst hf
      cases e with
      | ran u => trivial
      | disposed u => exact fun heq => h.disposed_gone u he (heq ▸ htmem)
    · simpa using h.log_order
  · intro i hi
    rcases h.marks_live i (hmarks hi) with hmem | ⟨k, u, hu, rfl⟩
    · rcases List.mem_cons.mp (hids.mem_iff.mp hmem) with rfl | hmem
      · exact absurd hi hunmark
      · exact .inl hmem
    · exact .inr ⟨k, u, hposts ▸ hu, rfl⟩

/-! ### Every step keeps the invariant -/

/-- A call of `post` takes an id that was not used before, neither by a task nor in the log. -/
theorem lifecycle_called (h : Lifecycle s) (ha : Allocated s) {k : Tid} {task : TTask}
    (hpc : s.posts k = .outside) (hwrap : s.id < 2 ^ 31 - 1) :
    Lifecycle { s with id := nextId s.id,
                       posts := Function.update s.posts k
                         (.marking { task with id := nextId s.id }) } := by
  have hnext := nextId_eq ha.id_nonneg hwrap
  -- the new id is above every id seen so far
  have hpend : ∀ k' t,
      (Function.update s.posts k (.marking { task with id := nextId s.id }) k').pending = some t →
        t.id = s.id + 1 ∨ (s.posts k').pending = some t := by
    intro k' t ht
    rcases eq_some_of_update ht with ⟨-, ht⟩ | ⟨-, ht⟩
    · cases ht
      exact .inl hnext
    · exact .inr ht
  have hnone : (s.posts k).pending = none := by rw [hpc]; rfl
  refine
    { h with
      bound := ?_
      pending_fresh := ?_
      log_bound := ?_
      log_pending := ?_
      marks_live := ?_ }
  · intro i hi
    show i ≤ nextId s.id
    linarith [h.bound i hi]
  · intro k' t ht hmem
    rcases hpend k' t ht with ht | ht
    · have hbound := h.bound t.id hmem
      linarith
    · exact h.pending_fresh k' t ht hmem
  · intro e he
    show e.task.id ≤ nextId s.id
    linarith [h.log_bound e he]
  · intro e he k' t ht heq
    rcases hpend k' t ht with ht | ht
    · linarith [h.log_bound e he]
    · exact h.log_pending e he k' t ht heq
  · intro i hi
    rcases h.marks_live i hi with hmem | ⟨k', t, ht, rfl⟩
    · exact .inl hmem
    · refine .inr ⟨k', t, ?_, rfl⟩
      have hk : k' ≠ k := by rintro rfl; rw [hnone] at ht; cases ht
      show (Function.update s.posts k _ k').pending = some t
      rw [Function.update_of_ne hk, ht]

/-- The mark is set before the task gets into the heap. -/
theorem lifecycle_marked (h : Lifecycle s) {k : Tid} {t : TTask} (hpc : s.posts k = .marking t) :
    Lifecycle { s with marks := insert t.id s.marks,
                       posts := Function.update s.posts k (.pushing t) } := by
  have hpend : ∀ k', (Function.update s.posts k (.pushing t) k').pending = (s.posts k').pending :=
    pending_update (by rw [hpc]; rfl)
  -- without the new mark this is a frame step
  have hframe : Lifecycle { s with posts := Function.update s.posts k (.pushing t) } :=
    h.frame (.refl _) rfl hpend rfl (Finset.Subset.refl _) (fun _ hu _ => hu) h.todo_suffix
  refine { hframe with marks_live := ?_ }
  intro i hi
  rcases Finset.mem_insert.mp hi with rfl | hi
  · exact .inr ⟨k, t, (hpend k).trans (by rw [hpc]; rfl), rfl⟩
  · exact hframe.marks_live i hi

/-- The task goes from its thread to the heap; no other task has its id. -/
theorem lifecycle_pushed (h : Lifecycle s) (ha : Allocated s) {k : Tid} {t : TTask}
    (hpc : s.posts k = .pushing t) :
    Lifecycle { s with tasks := t :: s.tasks,
                       posts := Function.update s.posts k (.testing t) } := by
  have hk : (s.posts k).pending = some t := by rw [hpc]; rfl
  -- the other threads have the tasks they had
  have hpend : ∀ k' u, (Function.update s.posts k (.testing t) k').pending = some u →
      k' ≠ k ∧ (s.posts k').pending = some u := by
    intro k' u hu
    rcases eq_some_of_update hu with ⟨-, hu⟩ | hu
    · cases hu
    · exact hu
  have hmem : ∀ i, i ∈ (t.id :: s.ids) → i = t.id ∨ i ∈ s.ids := fun i hi => List.mem_cons.mp hi
  refine
    { nodup := List.nodup_cons.mpr ⟨h.pending_fresh k t hk, h.nodup⟩
      bound := ?_
      pending_fresh := ?_
      log_bound := h.log_bound
      log_pending := fun e he k' u hu => h.log_pending e he k' u (hpend k' u hu).2
      disposed_gone := ?_
      once_waits := ?_
      todo_suffix := h.todo_suffix
      log_order := h.log_order
      marks_live := ?_ }
  -- the ids are below the next one
  · intro i hi
    rcases hmem i hi with rfl | hi
    · exact (ha.range k t (PostPc.task_of_pending hk)).2
    · exact h.bound i hi
  -- no other thread has a task with this id
  · intro k' u hu hi
    obtain ⟨hne, hu⟩ := hpend k' u hu
    rcases hmem _ hi with heq | hi
    · exact hne (ha.inj k' k u t (PostPc.task_of_pending hu) (PostPc.task_of_pending hk) heq)
    · exact h.pending_fresh k' u hu hi
  · intro u hu hi
    rcases hmem _ hi with heq | hi
    · exact h.log_pending _ hu k t hk heq
    · exact h.disposed_gone u hu hi
  · intro u hu hrep v hv
    rcases List.mem_cons.mp hu with rfl | hu
    · exact h.log_pending _ hv k u hk
    · exact h.once_waits u hu hrep v hv
  -- the mark of the task is that of one in the heap now
  · intro i hi
    rcases h.marks_live i hi with hi | ⟨k', u, hu, rfl⟩
    · exact .inl (List.mem_cons_of_mem _ hi)
    · by_cases hkk : k' = k
      · subst hkk
        rw [hk] at hu
        cases hu
        exact .inl List.mem_cons_self
      · refine .inr ⟨k', u, ?_, rfl⟩
        show (Function.update s.posts k _ k').pending = some u
        rw [Function.update_of_ne hkk, hu]

/-- A task of the batch is run; it has a mark, as it was in the heap.  A task that is not repeated
    was not run before. -/
theorem lifecycle_ranTask (h : Lifecycle s) {batch todo : List TTask} {t : TTask}
    (hpc : s.run = .running batch (t :: todo)) :
    Lifecycle { s with run := .running batch todo, log := s.log ++ [.ran t] } := by
  have hsuf : t :: todo <:+ batch := h.todo_suffix _ _ hpc
  have hbatch : s.ids = (s.tasks ++ batch).map TTask.id := ids_of_run hpc
  have htmem : t.id ∈ s.ids := by
    rw [hbatch]
    exact List.mem_map_of_mem (List.mem_append_right _ (hsuf.subset List.mem_cons_self))
  have hids : ids { s with run := .running batch todo, log := s.log ++ [.ran t] } = s.ids := by
    rw [hbatch]; rfl
  -- the places still to run hold no other task with the id of `t`
  have hnodup : ((s.tasks ++ t :: todo).map TTask.id).Nodup := by
    have hsub : (s.tasks ++ t :: todo).Sublist (s.tasks ++ batch) :=
      (List.Sublist.refl _).append hsuf.sublist
    exact (hsub.map TTask.id).nodup (hbatch ▸ h.nodup)
  have hother : ∀ u ∈ s.tasks ++ todo, t.id ≠ u.id := by
    have hperm : (s.tasks ++ t :: todo).Perm (t :: (s.tasks ++ todo)) := List.perm_middle
    have hcons : (t.id :: (s.tasks ++ todo).map TTask.id).Nodup :=
      (hperm.map TTask.id).nodup_iff.mp hnodup
    intro u hu heq
    exact (List.nodup_cons.mp hcons).1 (heq ▸ List.mem_map_of_mem hu)
  have hunrun : s.run.unrun = t :: todo := by rw [hpc]; rfl
  have hnew : ∀ e ∈ s.log ++ [.ran t], e ∈ s.log ∨ e = .ran t := by simp
  refine
    { nodup := hids ▸ h.nodup
      bound := hids ▸ h.bound
      pending_fresh := hids ▸ h.pending_fresh
      log_bound := ?_
      log_pending := ?_
      disposed_gone := ?_
      once_waits := ?_
      todo_suffix := ?_
      log_order := ?_
      marks_live := hids ▸ h.marks_live }
  · intro e he
    rcases hnew e he with he | rfl
    · exact h.log_bound e he
    · exact h.bound t.id htmem
  · intro e he k u hu
    rcases hnew e he with he | rfl
    · exact h.log_pending e he k u hu
    · exact fun heq => h.pending_fresh k u hu (heq ▸ htmem)
  · intro u hu
    rw [hids]
    rcases hnew _ hu with hu | hu
    · exact h.disposed_gone u hu
    · cases hu
  · intro u hu hrep v hv
    rcases hnew _ hv with hv | hv
    · refine h.once_waits u ?_ hrep v hv
      rw [hunrun]
      rcases List.mem_append.mp hu with hu | hu
      · exact List.mem_append_left _ hu
      · exact List.mem_append_right _ (List.mem_cons_of_mem _ hu)
    · cases hv; exact hother u hu
  · intro b d hrun
    cases hrun
    exact (List.suffix_cons t todo).trans hsuf
  · refine List.pairwise_append.mpr ⟨h.log_order, List.pairwise_singleton _ _, ?_⟩
    intro e he f hf
    rw [List.mem_singleton] at hf
    subst hf
    cases e with
    | ran u =>
      intro hrep
      exact h.once_waits t (by rw [hunrun]; simp) hrep u he
    | disposed u => exact fun heq => h.disposed_gone u he (heq ▸ htmem)

/-- A step of a thread that posts keeps the life cycles. -/
theorem lifecycle_post {k : Tid} {a : PostAct} (h : Lifecycle s) (ha : Allocated s)
    (hm : PostMove s k a s') : Lifecycle s' := by
  have hnone : ∀ pc : PostPc, s.posts k = pc → pc.pending = none → (s.posts k).pending = none :=
    fun pc hpc hp => by rw [hpc, hp]
  cases hm with
  | marked t hpc => exact lifecycle_marked h hpc
  | pushed t hpc hlock => exact lifecycle_pushed h ha hpc
  | immediate t hpc | sawIdle t hpc | sawBusy t hpc | armedFirst t hpc | worked t hpc
  | isTop t top hpc | notTop t top hpc | noTop t hpc | armedTop t hpc =>
    exact h.moved (hnone _ hpc rfl) rfl rfl rfl rfl

/-- Taking the top of the heap out splits the ids. -/
theorem ids_perm_erase {now : ℚ} {batch : List TTask} {top : TTask}
    (hpc : s.run = .collecting now batch) (htop : top ∈ s.tasks) :
    s.ids.Perm (top.id :: (s.tasks.erase top ++ batch).map TTask.id) := by
  have hperm : (s.tasks ++ batch).Perm (top :: (s.tasks.erase top ++ batch)) :=
    (List.perm_cons_erase htop).append_right batch
  rw [ids_of_run hpc]
  exact hperm.map TTask.id

/-- The top of the heap goes to the batch; the tasks of the heap and of the batch together are the
    same. -/
theorem lifecycle_taken (h : Lifecycle s) {now : ℚ} {batch : List TTask} {top : TTask}
    (hpc : s.run = .collecting now batch) (htop : top ∈ s.tasks) :
    Lifecycle { s with tasks := s.tasks.erase top, run := .collecting now (batch ++ [top]) } := by
  have hmem : ∀ u, u ∈ s.tasks.erase top ++ (batch ++ [top]) → u ∈ s.tasks ++ batch := by
    intro u hu
    simp only [List.mem_append, List.mem_singleton] at hu ⊢
    rcases hu with hu | hu | rfl
    · exact .inl (List.mem_of_mem_erase hu)
    · exact .inr hu
    · exact .inl htop
  refine h.frame ?_ rfl (fun _ => rfl) rfl (Finset.Subset.refl _) ?_ (by simp)
  · refine List.Perm.trans ?_ (ids_perm_erase hpc htop).symm
    have hassoc : s.tasks.erase top ++ (batch ++ [top]) = (s.tasks.erase top ++ batch) ++ [top] :=
      (List.append_assoc _ _ _).symm
    show ((s.tasks.erase top ++ (batch ++ [top])).map TTask.id).Perm _
    rw [hassoc, List.map_append]
    exact List.perm_append_singleton _ _
  · intro u hu _
    rw [hpc]
    exact hmem u hu

/-- A repeated task goes back to the heap, with its id and its mark. -/
theorem lifecycle_repushed (h : Lifecycle s) {now : ℚ} {t : TTask} {todo : List TTask}
    (hpc : s.run = .finishing now (t :: todo)) (hrep : t.repeated = true) :
    Lifecycle { s with tasks := { t with runat := now + t.duration.toNat } :: s.tasks,
                       run := .finishing now todo } := by
  refine h.frame ?_ rfl (fun _ => rfl) rfl (Finset.Subset.refl _) ?_ (by simp)
  · have hperm : s.ids.Perm (t.id :: (s.tasks ++ todo).map TTask.id) := by
      rw [ids_of_run hpc]
      exact List.perm_middle.map TTask.id
    exact hperm.symm
  · -- the task that goes back to the heap is a repeated one
    intro u hu hurep
    rcases List.mem_append.mp hu with hu | hu
    · rcases List.mem_cons.mp hu with rfl | hu
      · exact absurd hurep (by simpa [TTask.repeated] using hrep)
      · exact List.mem_append_left _ hu
    · cases hu

/-- A step of `Run` keeps them, too.  The steps that move a task are the lemmas above; the others
    leave all tasks where they are. -/
theorem lifecycle_run {a : RunAct} (h : Lifecycle s) (hm : RunMove s a s') : Lifecycle s' := by
  have hkeep : ∀ pc pc' : RunPc, s.run = pc → pc'.batch = pc.batch → pc'.batch = s.run.batch :=
    fun pc pc' hpc hb => by rw [hpc, hb]
  cases hm with
  | begun hpc | quit hpc | retrieved hpc | locked hpc | disarmed now hpc | idled hpc
  | peeked now top hpc | again now top hpc | rearmed now top hpc =>
    exact h.quiet rfl rfl (hkeep _ _ hpc rfl) rfl
  | interrupted => exact h
  | taken now batch top hpc htop hdue halive => exact lifecycle_taken h hpc htop.1
  -- a task without a mark is thrown away
  | cleared now batch top hpc htop hdue hdead =>
    refine h.remove top ?_ rfl rfl rfl (Finset.Subset.refl _) hdead ?_ (by simp [hpc])
    · rw [show ids { s with tasks := s.tasks.erase top, log := _ }
        = (s.tasks.erase top ++ batch).map TTask.id by rw [ids, hpc]; rfl]
      exact ids_perm_erase hpc htop.1
    · intro u hu
      rcases List.mem_append.mp hu with hu | hu
      · exact List.mem_append_left _ (List.mem_of_mem_erase hu)
      · exact List.mem_append_right _ hu
  -- the whole batch is to be run
  | unlocked now batch hpc hdue =>
    refine h.frame ?_ rfl (fun _ => rfl) rfl (Finset.Subset.refl _) ?_ ?_
    · rw [ids_of_run hpc]
      exact .refl _
    · intro u hu _
      rw [hpc]
      exact hu
    · intro b d hrun
      cases hrun
      exact List.suffix_refl _
  | ranTask batch todo t hpc => exact lifecycle_ranTask h hpc
  | stamped batch hpc => exact h.quiet rfl rfl (hkeep _ _ hpc rfl) rfl
  | relocked now batch hpc => exact h.quiet rfl rfl (hkeep _ _ hpc rfl) rfl
  | repushed now t todo hpc hrep => exact lifecycle_repushed h hpc hrep
  -- a task that is not repeated is gone, with its mark
  | dropped now t todo hpc hrep =>
    refine h.remove t ?_ rfl rfl rfl (Finset.erase_subset _ _) (Finset.notMem_erase _ _) ?_
      (by simp)
    · rw [ids_of_run hpc]
      exact List.perm_middle.map TTask.id
    · intro u hu
      rcases List.mem_append.mp hu with hu | hu
      · exact List.mem_append_left _ hu
      · cases hu

/-- **Every move keeps the life cycles**, if the ids do not wrap around; the cases with an argument
    of their own are the lemmas above. -/
theorem lifecycle_move {a : Act} (h : Lifecycle s) (ha : Allocated s) (hwrap : NoWrap s a)
    (hm : Move s a s') : Lifecycle s' := by
  cases hm with
  | called k task hpc hrunat hcall => exact lifecycle_called h ha hpc (hwrap hcall)
  | post k a s' hm => exact lifecycle_post h ha hm
  | run a s' hm => exact lifecycle_run h hm
  | cancelled id hrange =>
    exact h.frame (.refl _) rfl (fun _ => rfl) rfl (Finset.erase_subset _ _) (fun _ hu _ => hu)
      h.todo_suffix
  | ignored id hrange => exact h
  | woken | ticked | expired | timerRead | forwarded | stopped =>
    exact h.frame (.refl _) rfl (fun _ => rfl) rfl (Finset.Subset.refl _) (fun _ hu _ => hu)
      h.todo_suffix

/-! ### The life cycle over whole runs -/

/-- The life-cycle invariant holds after every run without a wrap-around. -/
theorem lifecycle_of_exec {clock : ℚ} {acts : List Act}
    (h : exec step (init clock) acts = some s) (hwrap : Along step NoWrap (init clock) acts) :
    Allocated s ∧ Lifecycle s := by
  refine exec_invariant_along (P := fun s => Allocated s ∧ Lifecycle s) ?_
    ⟨allocated_init clock, lifecycle_init clock⟩ hwrap h
  rintro s a s' ⟨halloc, hlife⟩ hwrap hst
  have hm := move_of_step hst
  exact ⟨allocated_move halloc hwrap hm, lifecycle_move hlife halloc hwrap hm⟩

/-- At most one element of a list satisfies `p` when no two of them can. -/
theorem countP_le_one {α : Type} {p : α → Bool} {l : List α}
    (h : l.Pairwise fun a b => ¬ (p a = true ∧ p b = true)) : l.countP p ≤ 1 := by
  induction l with
  | nil => simp
  | cons a l ih =>
    rw [List.pairwise_cons] at h
    rw [List.countP_cons]
    by_cases ha : p a = true
    · have hzero : l.countP p = 0 :=
        List.countP_eq_zero.mpr fun b hb hpb => h.1 b hb ⟨ha, hpb⟩
      rw [hzero, if_pos ha]
    · rw [if_neg ha]
      exact ih h.2

/-- The event is a run of the once task `i`. -/
def Event.isOnceRun (i : Int) : Event → Bool
  | .ran t => t.id == i && t.type == TIMERTASK_ONCE
  | .disposed _ => false

/-- The event is a disposal of task `i`. -/
def Event.isDisposal (i : Int) : Event → Bool
  | .ran _ => false
  | .disposed t => t.id == i

/-- `TIMERTASK_ONCE` is not repeated. -/
theorem repeated_of_once {t : TTask} (h : t.type = TIMERTASK_ONCE) : t.repeated = false := by
  rw [TTask.repeated, h]
  decide

/-- **Timer task life cycle.**  In every state reached with fewer than `2 ^ 31` posts: no id occurs
    twice in the heap together with the batch being processed; a once task has run at most once; a
    task has been disposed at most once and has not run afterwards; and every id in `marks_` belongs
    to a task in the heap or in the batch, or to a `post` that has not pushed its task yet. -/
theorem timer_lifecycle (clock : ℚ) (acts : List Act) (s : TRunner)
    (h : exec step (init clock) acts = some s) (hposts : acts.countP Act.allocates < 2 ^ 31) :
    s.ids.Nodup ∧
      (∀ i, s.log.countP (Event.isOnceRun i) ≤ 1) ∧
      (∀ i, s.log.countP (Event.isDisposal i) ≤ 1) ∧
      (∀ before after t, s.log = before ++ .disposed t :: after →
        ∀ u, .ran u ∈ after → u.id ≠ t.id) ∧
      (∀ i ∈ s.marks, i ∈ s.ids ∨ ∃ k t, (s.posts k).pending = some t ∧ t.id = i) := by
  have hwrap : Along step NoWrap (init clock) acts :=
    along_noWrap acts (le_refl _) (by show (0 : Int) + _ < _; omega)
  obtain ⟨-, hlife⟩ := lifecycle_of_exec h hwrap
  refine ⟨hlife.nodup, fun i => countP_le_one ?_, fun i => countP_le_one ?_, ?_, hlife.marks_live⟩
  · refine hlife.log_order.imp ?_
    rintro (u | u) (t | t) hfollows ⟨hu, ht⟩ <;>
      simp only [Event.isOnceRun, Bool.and_eq_true, beq_iff_eq, Bool.false_eq_true] at hu ht
    exact hfollows (repeated_of_once ht.2) (hu.1.trans ht.1.symm)
  · refine hlife.log_order.imp ?_
    rintro (u | u) (t | t) hfollows ⟨hu, ht⟩ <;>
      simp only [Event.isDisposal, beq_iff_eq, Bool.false_eq_true] at hu ht
    exact hfollows (ht.trans hu.symm)
  · intro before after t hlog u hu
    have hpair := hlife.log_order
    rw [hlog, List.pairwise_append] at hpair
    exact (List.pairwise_cons.mp hpair.2.1).1 _ hu

/-- A once task with a dispose callback, due at once, as its caller builds it. -/
def onceTask : TTask := ⟨0, 5, 5, TIMERTASK_ONCE, true, true⟩

/-- The steps of a `post` of `onceTask` by thread `k`. -/
def postOnce (k : Tid) : List Act := [.call k onceTask, .post k .mark, .post k .push, .post k .test]

/-- One wake-up of `Run` that takes the task `i` into its batch, runs and drops it. -/
def runOnce (i : Int) : List Act :=
  [.run .retrieve, .run .lock, .run (.collect { onceTask with id := i }), .run .unlock,
    .run .runTask, .run .stamp, .run .relock, .run .finish]

/-- A posted task is run and disposed, once each. -/
theorem timer_lifecycle_once :
    ∃ s, exec step (init 0) (.run .begin :: (postOnce 0 ++ runOnce 1)) = some s ∧
      s.log.countP (Event.isOnceRun 1) = 1 ∧ s.log.countP (Event.isDisposal 1) = 1 ∧
      s.ids.Nodup ∧ ∀ i, s.log.countP (Event.isOnceRun i) ≤ 1 := by
  obtain ⟨s, hs, hlog⟩ := exists_of_exec_any (s := init 0)
    (p := fun s => s.log.countP (Event.isOnceRun 1) == 1 && s.log.countP (Event.isDisposal 1) == 1)
    (show (exec step _ (.run .begin :: (postOnce 0 ++ runOnce 1))).any _ = true by decide +kernel)
  rw [Bool.and_eq_true, beq_iff_eq, beq_iff_eq] at hlog
  obtain ⟨hnodup, honce, -⟩ := timer_lifecycle 0 _ s hs (by decide)
  exact ⟨s, hs, hlog.1, hlog.2, hnodup, honce⟩

end CPlayground.Monitor.TRunner
