import Olric.Node.LockerUsers

namespace Olric

namespace LockTask

/-- The name that the goroutine has called `lock` for, which has not returned. -/
def calls : LockTask → Option (Bytes × Nat)
  | .entered name i | .acquired name i _ => some (name, i)
  | _ => none

/-- What the goroutine does with a lock, as long as it is in `lock` or in `unlock`. -/
def role : LockTask → LockRole
  | .entered name i => .entered name i
  | .acquired name i _ => .acquired name i
  | .releasing _ _ i => .releasing i
  | _ => .none

theorem role_calls (task : LockTask) : task.role.calls = task.calls := by
  cases task <;> rfl

end LockTask

namespace Locking

variable {s s' : Locking} {tid : Tid} {label : LockStep} {name : Bytes} {i : Nat} {task : LockTask}
  {returned : Bytes → Option Nat}

/-- Fewer than 2^32 calls of `lock` are going on for the name. -/
def Few (s : Locking) (name : Bytes) : Prop :=
  ∀ W : Finset Tid, (∀ tid ∈ W, ∃ i, (s.tasks tid).calls = some (name, i)) → W.card < 2 ^ 32

/-- `unlock` is called for a name that is not in the table, or after a call of `lock` for the name has
returned that no `unlock` has been called for yet. -/
def UnlocksPaired (s : Locking) : LockStep → Prop
  | .unlock _ name => s.locker.locks.lookup name = none ∨ s.Few name ∧ 0 < s.permits name
  | _ => True

/-- The users of the locks: the goroutines in `lock` and in `unlock`, and for each name the call of `lock` that has
returned with a lock. -/
def roles (s : Locking) (returned : Bytes → Option Nat) : Tid ⊕ Bytes → LockRole :=
  Sum.elim (LockTask.role ∘ s.tasks) fun name => (returned name).elim .none (.inside name)

theorem roles_task (same : s.tasks tid = task) : s.roles returned (.inl tid) = task.role :=
  congrArg LockTask.role same

theorem roles_returned (there : returned name = some i) : s.roles returned (.inr name) = .inside name i := by
  simp [roles, there]

theorem roles_step (tasks : s'.tasks = Function.update s.tasks tid task) (returned : Bytes → Option Nat) :
    s'.roles returned = Function.update (s.roles returned) (.inl tid) task.role := by
  rw [roles, tasks, Function.comp_update, ← Sum.update_elim_inl]
  rfl

theorem roles_return (s : Locking) (returned : Bytes → Option Nat) (name : Bytes) (lock : Option Nat) :
    s.roles (Function.update returned name lock) =
      Function.update (s.roles returned) (.inr name) (lock.elim .none (.inside name)) := by
  rw [roles, roles, Sum.update_elim_inr]
  congr 1
  funext other
  by_cases same : other = name
  · subst same
    simp
  · simp [same]

/-- Each permit is that of a call that has returned with a lock. -/
structure Paired (s : Locking) (returned : Bytes → Option Nat) : Prop where
  used : s.locker.Used (s.roles returned)
  permits : ∀ name, s.permits name = if (returned name).isSome then 1 else 0

theorem Paired.permits_eq_zero (paired : s.Paired returned) : s.permits name = 0 ↔ returned name = none := by
  rw [paired.permits]
  cases returned name <;> simp

/-- A step of a goroutine that does not return from `lock` or call `unlock`. -/
theorem Paired.next (paired : s.Paired returned) (tasks : s'.tasks = Function.update s.tasks tid task)
    (permits : s'.permits = s.permits)
    (used : s'.locker.Used (Function.update (s.roles returned) (.inl tid) task.role)) :
    s'.Paired returned := by
  rw [← roles_step tasks] at used
  exact ⟨used, fun name => (congrFun permits name).trans (paired.permits name)⟩

/-- A goroutine returns from `lock` or calls `unlock`. -/
theorem Paired.exchange (paired : s.Paired returned) (lock : Option Nat)
    (tasks : s'.tasks = Function.update s.tasks tid task)
    (permits : s'.permits = Function.update s.permits name (if lock.isSome then 1 else 0))
    (used : s'.locker.Used (Function.update (Function.update (s.roles returned) (.inl tid) task.role) (.inr name)
      (lock.elim .none (.inside name)))) : s'.Paired (Function.update returned name lock) := by
  rw [← roles_step tasks, ← roles_return] at used
  refine ⟨used, fun other => ?_⟩
  rw [permits]
  by_cases same : other = name
  · subst same
    simp
  · simp [same, paired.permits other]

theorem Paired.setTask (paired : s.Paired returned) (same : (s.tasks tid).role = task.role) :
    (s.setTask tid task).Paired returned :=
  paired.next rfl rfl (paired.used.stays same)

theorem Unlocks.role {timer : Option Nat} (unlocks : s.Unlocks tid name timer) : (s.tasks tid).role = .none := by
  cases unlocks with
  | client idle => rw [idle]; rfl
  | timer due => rw [due]; rfl

/-- Only goroutines are in `lock`. -/
theorem Few.roles (few : s.Few name) (W : Finset (Tid ⊕ Bytes))
    (calls : ∀ u ∈ W, ∃ i, (s.roles returned u).calls = some (name, i)) : W.card < 2 ^ 32 := by
  have left : W.toRight = ∅ := by
    rw [Finset.eq_empty_iff_forall_notMem]
    intro other there
    obtain ⟨i, call⟩ := calls _ (Finset.mem_toRight.1 there)
    change ((returned other).elim LockRole.none (.inside other)).calls = _ at call
    cases lock : returned other with
    | none => simp [lock, LockRole.calls] at call
    | some j => simp [lock, LockRole.calls] at call
  rw [← Finset.card_toLeft_add_card_toRight, left, Finset.card_empty]
  refine few W.toLeft fun tid there => ?_
  obtain ⟨i, call⟩ := calls _ (Finset.mem_toLeft.1 there)
  exact ⟨i, (s.tasks tid).role_calls ▸ call⟩

theorem Paired.step (paired : s.Paired returned) (allowed : s.UnlocksPaired label) (step : Step s label s') :
    s'.crashed = s.crashed ∧ ∃ returned', s'.Paired returned' := by
  have used := paired.used
  cases step with
  | @lock tid name _ idle => exact ⟨rfl, returned, paired.next rfl rfl (used.enter name (roles_task idle))⟩
  | acquire task acquired => exact ⟨rfl, returned, paired.next rfl rfl (used.acquire (roles_task task) acquired)⟩
  | @dec tid name i a task =>
    have role : s.roles returned (.inl tid) = .acquired name i := roles_task task
    -- The call that returns has the mutex, so no other one has returned with the lock.
    have fresh : returned name = none := by
      rw [Option.eq_none_iff_forall_ne_some]
      intro j before
      have other := roles_returned (s := s) before
      cases (used.uses.used (congrArg LockRole.uses role)).symm.trans (used.uses.used (congrArg LockRole.uses other))
      cases used.holds.alone (congrArg LockRole.holds role) (congrArg LockRole.holds other)
    have passed := (used.dec role).pass (v := .inr name) (Function.update_self ..) (by simp [roles, fresh])
    rw [Function.update_idem] at passed
    refine ⟨rfl, _, paired.exchange (some i) rfl ?_ passed⟩
    rw [paired.permits_eq_zero.2 fresh]
    rfl
  | @go tid child name i a task idle =>
    have parent : (s.setTask tid .idle).Paired returned := paired.setTask ((congrArg LockTask.role task).trans rfl)
    refine ⟨rfl, returned, parent.setTask ?_⟩
    rcases s.setTask_tasks tid .idle child with ⟨_, same⟩ | ⟨_, same⟩
    · rw [same]
      rfl
    · rw [same, idle]
      rfl
  | notifier _ task | notified task | expire task =>
    exact ⟨rfl, returned, paired.setTask ((congrArg LockTask.role task).trans rfl)⟩
  | noSuchLock _ unlocks => exact ⟨rfl, returned, paired.setTask unlocks.role⟩
  | @unlock tid name timer l i _ unlocks found =>
    obtain missing | ⟨few, given⟩ := allowed
    · cases missing.symm.trans (Locker.unlockLook_found found).1
    obtain ⟨j, before⟩ := Option.ne_none_iff_exists'.1 fun none => given.ne' (paired.permits_eq_zero.2 none)
    obtain ⟨rfl, left⟩ := used.leave few.roles (roles_returned before) found
    have passed := left.pass (v := .inl tid) (Function.update_self ..) (by simpa [roles] using unlocks.role)
    rw [Function.update_idem, Function.update_comm Sum.inr_ne_inl] at passed
    refine ⟨rfl, _, paired.exchange none rfl ?_ passed⟩
    rw [paired.permits, before]
    rfl
  | release task unlocked => exact ⟨rfl, returned, paired.next rfl rfl (used.release (roles_task task) unlocked)⟩
  | @fatal tid timer name i task fatal =>
    have held := used.held (congrArg LockRole.holds (roles_task task))
    rw [Locker.unlockMutex_none fatal] at held
    cases held
  | @close tid i task => exact ⟨rfl, returned, paired.next rfl rfl ((used.stays (roles_task task)).unlockClose i)⟩

end Locking

/-- If every `unlock` of a name that is in the table is called for a call of `lock` that has returned, the
mutex of a lock is never unlocked while it is unlocked. -/
theorem unlock_never_fatal {labels : List LockStep} {s : Locking}
    (run : Locking.system.Run Locking.UnlocksPaired labels s) : s.crashed = false := by
  have all : s.crashed = false ∧ ∃ returned, s.Paired returned := by
    refine run.invariant (fun s => s.crashed = false ∧ ∃ returned, s.Paired returned) (fun s started => ?_) ?_
    · obtain ⟨locker, _, idle, _, permits, sound⟩ := started
      have roles : s.roles (fun _ => none) = fun _ => .none := by
        funext u
        cases u with
        | inl tid => exact congrArg LockTask.role (idle tid)
        | inr name => rfl
      refine ⟨sound, fun _ => none, ?_, permits⟩
      rw [locker, roles]
      exact Locker.newLocker_used
    · intro s label s' ⟨sound, returned, paired⟩ allowed ⟨_, step⟩
      obtain ⟨same, paired'⟩ := paired.step allowed step
      exact ⟨same.trans sound, paired'⟩
  exact all.1

/-- One call of `lock` at most is going on. -/
theorem Locking.few_of_one {s : Locking} {name : Bytes} (tid : Tid)
    (others : ∀ t, t ≠ tid → (s.tasks t).calls = none) : s.Few name := by
  intro W calls
  have inside : W ⊆ {tid} := by
    intro t mem
    obtain ⟨i, call⟩ := calls t mem
    by_contra differs
    cases (others t (by simpa using differs)).symm.trans call
  have := Finset.card_le_card inside
  rw [Finset.card_singleton] at this
  omega

/-- While a goroutine has a lock, another one waits for it; a third one unlocks it for both of them. -/
theorem lock_then_unlock : ∃ s, Locking.system.Run Locking.UnlocksPaired
    [.lock 0 [107], .acquire 0, .dec 0, .lock 1 [107], .unlock 2 [107], .release 2, .close 2, .acquire 1, .dec 1,
      .unlock 2 [107], .release 2] s ∧ s.tasks 2 = .closing 0 ∧ s.crashed = false := by
  have r : Locking.system.Run Locking.UnlocksPaired [] idleLocking := .start idleLocking_init
  have r := r.andThenAllowed (.lock 0 [107]) trivial ⟨rfl, .lock rfl rfl⟩
  have r := r.andThenAllowed (.acquire 0) trivial ⟨rfl, .acquire rfl rfl⟩
  have r := r.andThenAllowed (.dec 0) trivial ⟨rfl, .dec rfl⟩
  have r := r.andThenAllowed (.lock 1 [107]) trivial ⟨rfl, .lock rfl rfl⟩
  have r := r.andThenAllowed (.unlock 2 [107]) (.inr ⟨Locking.few_of_one 1 fun t other => ?_, Nat.one_pos⟩)
    ⟨rfl, .unlock rfl (.client rfl) rfl⟩
  have r := r.andThenAllowed (.release 2) trivial ⟨rfl, .release rfl rfl⟩
  have r := r.andThenAllowed (.close 2) trivial ⟨rfl, .close rfl⟩
  have r := r.andThenAllowed (.acquire 1) trivial ⟨rfl, .acquire rfl rfl⟩
  have r := r.andThenAllowed (.dec 1) trivial ⟨rfl, .dec rfl⟩
  have r := r.andThenAllowed (.unlock 2 [107]) (.inr ⟨Locking.few_of_one 1 fun t other => ?_, Nat.one_pos⟩)
    ⟨rfl, .unlock rfl (.client rfl) rfl⟩
  have r := r.andThenAllowed (.release 2) trivial ⟨rfl, .release rfl rfl⟩
  · exact ⟨_, r, rfl, unlock_never_fatal r⟩
  all_goals
    by_cases first : t = 0
    · subst first
      rfl
    · by_cases third : t = 2
      · subst third
        rfl
      · simp [Locking.setTask, idleLocking, first, third, other, LockTask.calls]

/-- A goroutine is about to lock the mutex of a new lock when another one unlocks it. -/
theorem unlock_of_unlocked : ∃ labels s, Locking.system.AnyRun labels s ∧ s.crashed = true := by
  have start : Locking.system.AnyRun [] idleLocking := .start idleLocking_init
  have locked := start.andThen (.lock 0 [107]) ⟨rfl, .lock rfl rfl⟩
  have found := locked.andThen (.unlock 1 [107]) ⟨rfl, .unlock rfl (.client rfl) rfl⟩
  exact ⟨_, _, found.andThen (.release 1) ⟨rfl, .fatal rfl rfl⟩, rfl⟩

end Olric
