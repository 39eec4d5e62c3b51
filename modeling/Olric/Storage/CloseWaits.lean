import Olric.Storage.Mergers

namespace Olric

namespace StorageTask

/-- `Close` has the lock and has not got past the merge goroutine. -/
def Closes : StorageTask → Prop
  | .inside op => op = .close
  | .waiting => True
  | _ => False

/-- The wait group counts the goroutine. -/
def Counts : StorageTask → Prop
  | .finishing => True
  | task => task.Minds

theorem Call.not_counts {task : StorageTask} (call : task.Call) : ¬ task.Counts := by
  cases call with
  | write other => exact other
  | read => nofun

theorem Closes.not_merges {task : StorageTask} (closes : task.Closes) : ¬ task.Merges := by
  cases task with
  | inside op =>
    rintro rfl
    cases closes
  | waiting => nofun
  | _ => cases closes

theorem Closes.writing {task : StorageTask} (closes : task.Closes) : task.writing = some true := by
  cases task with
  | inside | waiting => rfl
  | _ => cases closes

theorem Call.not_closes {task : StorageTask} (call : task.Call) : ¬ task.Closes := by
  cases call <;> nofun

end StorageTask

theorem Storage.Section.not_counts {s s' : Storage} {task task' : StorageTask} (work : s.Section task task' s') :
    ¬ task.Counts ∧ ¬ task'.Counts := by
  cases work <;> exact ⟨nofun, nofun⟩

theorem Storage.Section.not_closes {s s' : Storage} {task task' : StorageTask} (work : s.Section task task' s') :
    ¬ task.Closes ∧ ¬ task'.Closes := by
  cases work <;> exact ⟨nofun, nofun⟩

namespace Goroutines

variable {s s' : Goroutines} {tid other closer merger : Nat} {label : GoroutineStep} {task : StorageTask}

/-- The wait group has the number of merge goroutines that have not called `wg.Done()`. -/
def Counted (s : Goroutines) : Prop :=
  ∃ workers : Finset Nat, workers.card = s.wg ∧ ∀ tid, tid ∈ workers ↔ (s.tasks tid).Counts

theorem Counted.keep (counted : s.Counted) {mu : RWMutex Nat} {str : Storage}
    (counts : task.Counts ↔ (s.tasks tid).Counts) :
    { s.setTask tid task with mu, str : Goroutines }.Counted := by
  have same : StorageTask.Counts ∘ (s.setTask tid task).tasks = StorageTask.Counts ∘ s.tasks :=
    comp_setTask_same (propext counts)
  obtain ⟨workers, card, mem⟩ := counted
  exact ⟨workers, card, fun tid => (mem tid).trans (iff_of_eq (congrFun same tid).symm)⟩

theorem Counted.start (counted : s.Counted) {child : Nat} (idle : s.tasks child = .idle) :
    { s.setTask child (.locking .merge) with wg := s.wg + 1 }.Counted := by
  obtain ⟨workers, card, mem⟩ := counted
  have new : child ∉ workers := by
    rw [mem, idle]
    nofun
  refine ⟨insert child workers, by rw [Finset.card_insert_of_notMem new, card], fun other => ?_⟩
  change _ ↔ ((s.setTask child (.locking .merge)).tasks other).Counts
  rw [Finset.mem_insert]
  rcases s.setTask_tasks child (.locking .merge) other with ⟨rfl, same⟩ | ⟨differs, same⟩ <;> rw [same]
  · exact iff_of_true (.inl rfl) rfl
  · rw [mem, or_iff_right differs]

theorem Counted.finish (counted : s.Counted) (finishing : s.tasks tid = .finishing) :
    { s.setTask tid .idle with wg := s.wg - 1 }.Counted := by
  obtain ⟨workers, card, mem⟩ := counted
  have mine : tid ∈ workers := by
    rw [mem, finishing]
    trivial
  refine ⟨workers.erase tid, by rw [Finset.card_erase_of_mem mine, card], fun other => ?_⟩
  change _ ↔ ((s.setTask tid .idle).tasks other).Counts
  rw [Finset.mem_erase]
  rcases s.setTask_tasks tid .idle other with ⟨rfl, same⟩ | ⟨differs, same⟩ <;> rw [same]
  · exact iff_of_false (fun both => both.1 rfl) nofun
  · rw [mem, and_iff_right differs]

theorem Counted.step (counted : s.Counted) (step : Step s label s') : s'.Counted := by
  cases step with
  | call idle call => exact counted.keep (iff_of_false call.not_counts (by rw [idle]; nofun))
  | announce task | acquire task | cancelled task | reset task => exact counted.keep (by rw [task]; exact Iff.rfl)
  | tick task => exact counted.keep (by rw [task]; exact iff_of_true rfl trivial)
  | work work => exact counted.keep (iff_of_false work.not_counts.2 work.not_counts.1)
  | @start tid child task str work _ _ idle =>
    have worked : { s.setTask tid task with str }.Counted :=
      counted.keep (iff_of_false work.not_counts.2 work.not_counts.1)
    exact worked.start ((setTask_of_ne (child_ne work idle)).trans idle)
  | merge task => exact counted.keep (by rw [task]; exact iff_of_true rfl rfl)
  | closedBefore task | cancel task | wait task | free task | rlock task | visit task | leave task =>
    exact counted.keep (by rw [task]; exact iff_of_false nofun nofun)
  | @unlock _ merged _ task =>
    rcases merged with _ | _ | _
    · exact counted.keep (by rw [task]; exact iff_of_false nofun nofun)
    · exact counted.keep (by rw [task]; exact iff_of_true trivial rfl)
    · exact counted.keep (by rw [task]; exact iff_of_true trivial rfl)
  | finish task => exact counted.finish task
  | @runlock _ nested _ task => cases nested <;> exact counted.keep (by rw [task]; exact iff_of_false nofun nofun)

theorem counted_start (started : system.init s) : s.Counted :=
  ⟨∅, started.2.2.1.symm, fun tid => iff_of_false (Finset.notMem_empty tid) (by rw [started.2.2.2 tid]; nofun)⟩

theorem Counted.awaited (counted : s.Counted) (counts : (s.tasks tid).Counts) : 0 < s.wg := by
  obtain ⟨workers, card, mem⟩ := counted
  rw [← card]
  exact Finset.card_pos.2 ⟨tid, (mem tid).2 counts⟩

/-- `Close` has the mutex and waits for the wait group, and a goroutine that it waits for is about to
acquire the mutex, for a merge. -/
structure CloseStuck (s : Goroutines) (closer merger : Nat) : Prop where
  waits : s.tasks closer = .waiting
  held : s.mu.writer = some closer ∧ s.mu.locked = true
  awaited : 0 < s.wg
  merger : s.tasks merger = .locking .merge

theorem CloseStuck.next {u : Goroutines} (stuck : s.CloseStuck closer merger) (counted : u.Counted)
    (closes : u.tasks closer = s.tasks closer) (merges : u.tasks merger = s.tasks merger)
    (held : u.mu.writer = some closer ∧ u.mu.locked = true) : u.CloseStuck closer merger where
  waits := closes.trans stuck.waits
  held := held
  awaited := by
    have counts : (u.tasks merger).Counts := by
      rw [merges, stuck.merger]
      rfl
    exact counted.awaited counts
  merger := merges.trans stuck.merger

/-- Neither of the two can go on, and nobody else can help them. -/
theorem CloseStuck.step (stuck : s.CloseStuck closer merger) (counted : s.Counted) (step : Step s label s') :
    s'.CloseStuck closer merger := by
  have counted := counted.step step
  have others {tid : Nat} {task : StorageTask} (there : s.tasks tid = task) (notCloser : task ≠ .waiting)
      (notMerger : task ≠ .locking .merge) : closer ≠ tid ∧ merger ≠ tid := by
    constructor
    · rintro rfl
      exact notCloser (there.symm.trans stuck.waits)
    · rintro rfl
      exact notMerger (there.symm.trans stuck.merger)
  have works {tid : Nat} {task : StorageTask} {str : Storage} (work : s.str.Section (s.tasks tid) task str) :
      closer ≠ tid ∧ merger ≠ tid := by
    constructor
    · rintro rfl
      rw [stuck.waits] at work
      cases work
    · rintro rfl
      rw [stuck.merger] at work
      cases work
  -- The mutex is held by `Close`, which is not about to unlock it.
  have holder {tid : Nat} {task : StorageTask} (there : s.tasks tid = task) (notCloser : task ≠ .waiting)
      (mine : s.mu.writer = some tid) : False := by
    cases stuck.held.1.symm.trans mine
    exact notCloser (there.symm.trans stuck.waits)
  cases step with
  | call task | merge task | closedBefore task | cancel task | free task | tick task | cancelled task | reset task
  | finish task | visit task | leave task =>
    obtain ⟨notCloser, notMerger⟩ := others task nofun nofun
    exact stuck.next counted (setTask_of_ne notCloser) (setTask_of_ne notMerger) stuck.held
  | work work =>
    obtain ⟨notCloser, notMerger⟩ := works work
    exact stuck.next counted (setTask_of_ne notCloser) (setTask_of_ne notMerger) stuck.held
  | start work _ _ idle =>
    obtain ⟨notCloser, notMerger⟩ := works work
    obtain ⟨notCloser', notMerger'⟩ := others idle nofun nofun
    exact stuck.next counted ((setTask_of_ne notCloser').trans (setTask_of_ne notCloser))
      ((setTask_of_ne notMerger').trans (setTask_of_ne notMerger)) stuck.held
  | wait _ zero => exact absurd zero stuck.awaited.ne'
  | announce _ done => exact absurd ((RWMutex.announce_eq done).1.symm.trans stuck.held.1) nofun
  | rlock _ done => exact absurd ((RWMutex.rlock_eq done).1.symm.trans stuck.held.1) nofun
  | acquire task done => exact (holder task nofun (RWMutex.acquire_eq done).1).elim
  | unlock task done => exact (holder task nofun (RWMutex.unlock_eq done).1).elim
  | runlock task done =>
    obtain ⟨_, rfl⟩ := RWMutex.runlock_eq done
    obtain ⟨notCloser, notMerger⟩ := others task nofun nofun
    exact stuck.next counted (setTask_of_ne notCloser) (setTask_of_ne notMerger) stuck.held

/-- `Close` gets the lock only when no merge goroutine will call `chunkedMergeTables` again. -/
def ClosesMerged (s : Goroutines) : GoroutineStep → Prop
  | .acquire tid => s.tasks tid = .acquiring .close → ∀ other, ¬ (s.tasks other).Merges
  | _ => True

/-- Nobody merges while `Close` has the lock. -/
def ClosesAlone (s : Goroutines) : Prop := ∀ tid other, (s.tasks tid).Closes → ¬ (s.tasks other).Merges

theorem ClosesAlone.next (alone : s.ClosesAlone) {mu : RWMutex Nat} {str : Storage} {wg : Nat}
    (closes : task.Closes → ∀ other, ¬ (s.tasks other).Merges)
    (merges : task.Merges → ∀ other, ¬ (s.tasks other).Closes) :
    { s.setTask tid task with mu, str, wg : Goroutines }.ClosesAlone := by
  intro closer merger closing merging
  change ((s.setTask tid task).tasks closer).Closes at closing
  change ((s.setTask tid task).tasks merger).Merges at merging
  rcases s.setTask_tasks tid task closer with ⟨_, mine⟩ | ⟨_, mine⟩ <;> rw [mine] at closing
  · rcases s.setTask_tasks tid task merger with ⟨_, its⟩ | ⟨_, its⟩ <;> rw [its] at merging
    · exact closing.not_merges merging
    · exact closes closing merger merging
  · rcases s.setTask_tasks tid task merger with ⟨_, its⟩ | ⟨_, its⟩ <;> rw [its] at merging
    · exact merges merging closer closing
    · exact alone closer merger closing merging

theorem ClosesAlone.keep (alone : s.ClosesAlone) {mu : RWMutex Nat} {str : Storage} {wg : Nat}
    (closes : task.Closes → (s.tasks tid).Closes) (merges : task.Merges → (s.tasks tid).Merges) :
    { s.setTask tid task with mu, str, wg : Goroutines }.ClosesAlone :=
  alone.next (fun closing other => alone tid other (closes closing))
    fun merging other closing => alone other tid closing (merges merging)

theorem ClosesAlone.step (alone : s.ClosesAlone) (locked : s.Locked) (allowed : s.ClosesMerged label)
    (step : Step s label s') : s'.ClosesAlone := by
  cases step with
  | call _ call =>
    exact alone.keep (fun closes => absurd closes call.not_closes) fun merges => absurd merges.minds call.not_minds
  | announce task => exact alone.keep nofun fun merges => by rw [task]; exact merges
  | @acquire tid op mu task done =>
    refine alone.next (fun closes => allowed (by rw [task, closes])) fun merges other closes => ?_
    exact alone other tid closes (by rw [task]; exact merges)
  | work work =>
    exact alone.keep (fun closes => absurd closes work.not_closes.2) fun merges =>
    absurd merges.minds work.not_minds.2
  | @start tid child task str work =>
    -- Nobody is in a section while `Close` has the lock.
    have none (other : Nat) : ¬ (s.tasks other).Closes := by
      intro closes
      cases locked.no_section closes.writing work
      exact work.not_closes.1 closes
    have worked : { s.setTask tid task with str }.ClosesAlone :=
      alone.next (fun closes => absurd closes work.not_closes.2) fun merges => absurd merges.minds work.not_minds.2
    refine worked.next nofun fun _ other closes => ?_
    change ((s.setTask tid task).tasks other).Closes at closes
    rcases s.setTask_tasks tid task other with ⟨_, same⟩ | ⟨_, same⟩ <;> rw [same] at closes
    · exact work.not_closes.2 closes
    · exact none other closes
  | merge task => exact alone.keep nofun fun _ => by rw [task]; rfl
  | cancel task => exact alone.keep (fun _ => by rw [task]; rfl) nofun
  | closedBefore | wait | free | cancelled | reset | finish | rlock | visit | leave => exact alone.keep nofun nofun
  | @unlock _ merged _ task =>
    rcases merged with _ | _ | _
    · exact alone.keep nofun nofun
    · exact alone.keep nofun fun _ => by rw [task]; rfl
    · exact alone.keep nofun nofun
  | tick task => exact alone.keep nofun fun _ => by rw [task]; trivial
  | @runlock _ nested => cases nested <;> exact alone.keep nofun nofun

/-- `Close` and the merge goroutine do not block each other if `Close` gets the lock only when nobody will
merge any more. -/
theorem close_never_stuck {labels : List GoroutineStep} (run : system.Run ClosesMerged labels s)
    (closer merger : Nat) : ¬ s.CloseStuck closer merger := by
  have inv : s.Locked ∧ s.ClosesAlone := by
    refine run.invariant (fun s => s.Locked ∧ s.ClosesAlone) (fun s started => ⟨locked_start started, ?_⟩)
      fun s label s' inv allowed step => ⟨inv.1.step step, inv.2.step inv.1 allowed step⟩
    intro tid _ closes
    rw [started.2.2.2 tid] at closes
    cases closes
  rintro ⟨waits, _, _, merges⟩
  exact inv.2 closer merger (by rw [waits]; trivial) (by rw [merges]; rfl)

/-- `Close` of a new storage, which has nobody to wait for. -/
theorem close_not_stuck : ∃ labels s, system.Run ClosesMerged labels s ∧ s.tasks 0 = .waiting ∧
    ∀ merger, ¬ s.CloseStuck 0 merger := by
  obtain ⟨t, made, _⟩ := newTable_eq 0
  have created : Storage.new true 0 = .ok ⟨[t], false, false⟩ := by
    rw [Storage.new, made]
    rfl
  have lets : Lets ClosesMerged (unused ⟨[t], false, false⟩) 0 .close := by
    intro u label task tasks mem
    cases label with
    | acquire => exact fun _ other merges => unused_not_minds (by decide) tasks mem other merges.minds
    | _ => trivial
  obtain ⟨_, run⟩ := enter_run (unused_run created) lets rfl rfl (by decide)
  have run := run.andThenAllowed (.cancel 0) trivial (.cancel rfl rfl)
  exact ⟨_, _, run, rfl, close_never_stuck run 0⟩

/-- The merge goroutine has been started and has not got the lock yet when `Close` gets it. Neither of them
ever gets on. -/
theorem close_and_merger_stuck : ∃ labels s, system.AnyRun labels s ∧ s.CloseStuck 0 1 ∧
    ∀ label s', Step s label s' → s'.CloseStuck 0 1 := by
  obtain ⟨_, t, u, _, _, run, _⟩ := switch_run
  obtain ⟨_, run⟩ := enter_run (run.mono fun _ _ _ => trivial) (lets_any _ 0 .close) rfl rfl (by decide)
  have run := run.andThen (.cancel 0) (.cancel rfl rfl)
  have counted := run.invariant Counted (fun _ => counted_start) fun _ _ _ counted _ step => counted.step step
  have stuck : CloseStuck ⟨⟨[t, u], true, true⟩, .heldBy 0, 1,
      (((switched t u).setTask 0 (.inside .close)).setTask 0 .waiting).tasks⟩ 0 1 := ⟨rfl, ⟨rfl, rfl⟩,
        Nat.one_pos, rfl⟩
  exact ⟨_, _, run, stuck, fun _ _ step => stuck.step counted step⟩

end Goroutines

end Olric
