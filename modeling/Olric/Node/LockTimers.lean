import Olric.Node.LockerSteps

namespace Olric

namespace LockTask

/-- A call of `lock`, up to the end of its timeout goroutine. -/
def Active : LockTask → Prop
  | .idle | .closing _ | .releasing none _ _ => False
  | _ => True

/-- The call that has got the lock is about to start its timeout goroutine, or this one is still going to
release the lock when the time is over. -/
def Guards (closed : Nat → Bool) (i a : Nat) : LockTask → Prop
  | .acquired _ j b | .granted _ j b | .timing _ j b | .due _ j b => j = i ∧ b = a
  | .waiting _ j b channel => j = i ∧ b = a ∧ ∃ c, channel = some c ∧ closed c = false
  | .releasing timer _ j => j = i ∧ timer = some a
  | _ => False

/-- A call of `lock` that has returned and its timeout goroutine, outside of `unlock`. -/
def Left (key : Bytes) : LockTask → Prop
  | .idle => True
  | .granted name _ _ | .timing name _ _ | .waiting name _ _ _ | .due name _ _ => name = key
  | _ => False

end LockTask

namespace Locking

/-- All goroutines use the same key. `lock` is called only if the key has no lock and the timeout goroutines
of all calls before it have ended, and `unlock` only while no call of `lock` is going on. -/
def LocksAlone (key : Bytes) (s : Locking) : LockStep → Prop
  | .lock _ name => name = key ∧ s.locker.locks.lookup key = none ∧ ∀ tid, ¬ (s.tasks tid).Active
  | .unlock _ name => name = key ∧ ∀ tid, (s.tasks tid).waits = none
  | _ => True

/-- The acquisition `a` has the lock `i`, and no other has one. -/
def Taken (s : Locking) (i a : Nat) : Prop := ∀ j b, s.holder j = some b ↔ j = i ∧ b = a

/-- The channel of the lock `i` has been made, and it is open. -/
def Open (s : Locking) (i : Nat) : Prop :=
  (s.locker.ctrs i).done < s.locker.channels ∧ s.locker.closed (s.locker.ctrs i).done = false

/-- How far the key has got, if the goroutine `t` is the only one that has called `lock` for it and not
returned, or the timeout goroutine of the last call. Besides it, only a goroutine inside `unlock` is busy. -/
inductive Phase (key : Bytes) (s : Locking) (t : Tid) : Prop
  | free : s.mu = false → s.locker.locks.lookup key = none → (∀ i, s.holder i = none) → (s.tasks t).Left key →
      (∀ o, o ≠ t → s.tasks o = .idle) → Phase key s t
  | entered {i} : s.locker.locks.lookup key = some i → s.Open i → (∀ i, s.holder i = none) →
      (s.locker.ctrs i).waiters = 1 → s.tasks t = .entered key i → (∀ o, o ≠ t → s.tasks o = .idle) → Phase key s t
  | acquired {i a} : s.locker.locks.lookup key = some i → s.Open i → s.Taken i a → (s.locker.ctrs i).waiters = 1 →
      s.tasks t = .acquired key i a → (∀ o, o ≠ t → s.tasks o = .idle) → Phase key s t
  | held {i a} : s.locker.locks.lookup key = some i → s.Open i → s.Taken i a → (s.locker.ctrs i).waiters = 0 →
      (s.tasks t).Left key → (s.tasks t).Guards s.locker.closed i a → (∀ o, o ≠ t → s.tasks o = .idle) → Phase key s t
  | releasing {u timer i a} : s.mu = true → s.locker.locks.lookup key = none → s.Open i → s.Taken i a →
      s.target = some a → s.tasks u = .releasing timer key i →
      (timer = none ∧ (s.tasks t).Left key ∧ (s.tasks t).Guards s.locker.closed i a ∨ timer = some a ∧ u = t) →
      (∀ o, o ≠ t → o ≠ u → s.tasks o = .idle) → Phase key s t
  | closing {u i} : s.mu = true → s.locker.locks.lookup key = none → (s.locker.ctrs i).done < s.locker.channels →
      (∀ i, s.holder i = none) → s.tasks u = .closing i → ((s.tasks t).Left key ∨ u = t) →
      (∀ o, o ≠ t → o ≠ u → s.tasks o = .idle) → Phase key s t

variable {key : Bytes} {s s' : Locking} {t t' tid : Tid} {label : LockStep} {name : Bytes} {i a : Nat}
  {current : LockTask}

/-- Only the goroutine `t` and the one inside `unlock` are busy. -/
theorem Phase.who (phase : s.Phase key t) (at_ : s.tasks tid = current) (busy : current ≠ .idle)
    (outside : ¬ current.Inside) : tid = t := by
  by_contra differs
  subst at_
  cases phase with
  | free _ _ _ _ idle | entered _ _ _ _ _ idle | acquired _ _ _ _ _ idle | held _ _ _ _ _ _ idle =>
    exact busy (idle tid differs)
  | @releasing u _ _ _ _ _ _ _ _ task _ idle | @closing u _ _ _ _ _ task _ idle =>
    refine busy (idle tid differs ?_)
    rintro rfl
    rw [task] at outside
    exact outside trivial

/-- A call of `lock` that has not returned. -/
theorem Phase.calls (phase : s.Phase key t) (waits : (s.tasks t).waits = some i) :
    s.locker.locks.lookup key = some i ∧ s.Open i ∧ (s.locker.ctrs i).waiters = 1 ∧ (∀ o, o ≠ t → s.tasks o = .idle) ∧
      (s.tasks t = .entered key i ∧ (∀ j, s.holder j = none) ∨ ∃ a, s.tasks t = .acquired key i a ∧ s.Taken i a) := by
  have back : ¬ (s.tasks t).Left key := by
    intro left
    cases task : s.tasks t with
    | entered | acquired => rwa [task] at left
    | idle | granted | timing | waiting | due | releasing | closing => cases task ▸ waits
  cases phase with
  | entered found opened nobody waiters task idle =>
    cases task ▸ waits
    exact ⟨found, opened, waiters, idle, .inl ⟨task, nobody⟩⟩
  | acquired found opened taken waiters task idle =>
    cases task ▸ waits
    exact ⟨found, opened, waiters, idle, .inr ⟨_, task, taken⟩⟩
  | free _ _ _ left | held _ _ _ _ left => exact absurd left back
  | releasing _ _ _ _ _ task ends =>
    rcases ends with ⟨_, left, _⟩ | ⟨_, rfl⟩
    · exact absurd left back
    · cases task ▸ waits
  | closing _ _ _ _ task ends =>
    rcases ends with left | rfl
    · exact absurd left back
    · cases task ▸ waits

/-- While nobody is inside `unlock`, a lock that is taken is the lock of the key. -/
theorem Phase.kept (phase : s.Phase key t) (free : s.mu = false) (holder : s.holder i = some a) :
    s.locker.locks.lookup key = some i ∧ s.Open i := by
  cases phase with
  | free _ _ nobody | entered _ _ nobody => cases (nobody i).symm.trans holder
  | acquired found opened taken | held found opened taken =>
    obtain ⟨rfl, rfl⟩ := (taken i a).1 holder
    exact ⟨found, opened⟩
  | releasing locked | closing locked => cases free.symm.trans locked

/-- The call or its timeout goroutine goes on, and still guards the lock that it guards. -/
theorem Phase.goOn {tasks : Tid → LockTask} (phase : s.Phase key t) (was : (s.tasks t).Left key)
    (away : t' = t ∨ s.tasks t' = .idle) (left : (tasks t').Left key)
    (guards : ∀ {i a}, s.holder i = some a → (s.tasks t).Guards s.locker.closed i a →
      (tasks t').Guards s.locker.closed i a)
    (others : ∀ o, o ≠ t' → tasks o = if o = t then .idle else s.tasks o) :
    { s with tasks : Locking }.Phase key t' := by
  have stillIdle {o : Tid} (differs : o ≠ t') (idle : o ≠ t → s.tasks o = .idle) : tasks o = .idle := by
    rw [others o differs]
    split
    · rfl
    next mine => exact idle mine
  have inside {u : Tid} {task : LockTask} (same : s.tasks u = task) (there : task.Inside) : u ≠ t ∧
      tasks u = task := by
    have first : u ≠ t := by
      rintro rfl
      rw [same] at was
      cases task <;> first | exact there | exact was
    have second : u ≠ t' := by
      rintro rfl
      rcases away with mine | idle
      · exact first mine
      · cases same.symm.trans idle
        exact there
    rw [others u second, if_neg first]
    exact ⟨first, same⟩
  cases phase with
  | free free missing nobody _ idle =>
    exact .free free missing nobody left fun o differs => stillIdle differs (idle o)
  | entered _ _ _ _ task | acquired _ _ _ _ task =>
    rw [task] at was
    exact was.elim
  | @held i a found opened taken waiters _ guarded idle =>
    exact .held found opened taken waiters left (guards ((taken i a).2 ⟨rfl, rfl⟩) guarded)
      fun o differs => stillIdle differs (idle o)
  | @releasing u timer i a locked missing opened taken target task ends idle =>
    obtain ⟨first, same⟩ := inside task trivial
    rcases ends with ⟨none_, _, guarded⟩ | ⟨_, mine⟩
    · exact .releasing locked missing opened taken target same
        (.inl ⟨none_, left, guards ((taken i a).2 ⟨rfl, rfl⟩) guarded⟩)
        fun o differs apart => stillIdle differs fun mine => idle o mine apart
    · exact absurd mine first
  | closing locked missing made nobody task _ idle =>
    exact .closing locked missing made nobody (inside task trivial).2 (.inl left)
      fun o differs apart => stillIdle differs fun mine => idle o mine apart

/-- The same with a step that is only about the goroutine itself. -/
theorem Phase.setTask {task : LockTask} (phase : s.Phase key t) (was : (s.tasks t).Left key) (left : task.Left key)
    (guards : ∀ {i a}, s.holder i = some a → (s.tasks t).Guards s.locker.closed i a →
      task.Guards s.locker.closed i a) :
    (s.setTask t task).Phase key t := by
  refine phase.goOn was (.inl rfl) ?_ ?_ fun o differs => ?_
  · rwa [Function.update_self]
  · rwa [Function.update_self]
  · rw [if_neg differs]
    exact Function.update_of_ne differs ..

theorem Phase.lock (phase : s.Phase key t) (free : s.mu = false) (missing : s.locker.locks.lookup key = none)
    (none_ : ∀ tid, ¬ (s.tasks tid).Active) (channels : ∀ c, s.locker.closed c = true → c < s.locker.channels) :
    { s.setTask tid (.entered key (s.locker.enter key).2) with locker := (s.locker.enter key).1 : Locking }.Phase
      key tid := by
  cases phase with
  | free _ _ nobody left idle =>
    have mine : s.tasks t = .idle := by
      have passive := none_ t
      cases task : s.tasks t with
      | idle => rfl
      | entered | acquired | releasing | closing =>
        rw [task] at left
        exact left.elim
      | granted | timing | waiting | due =>
        rw [task] at passive
        exact absurd trivial passive
    have new : s.locker.closed s.locker.channels = false := by
      by_contra closed
      exact absurd (channels _ (by simpa using closed)) (lt_irrefl _)
    rw [Locker.enter_new missing]
    refine .entered (Finmap.lookup_insert _) ⟨?_, ?_⟩ nobody ?_ setTask_self fun o differs => ?_
    · simp [Locker.setCtr]
    · simpa [Locker.setCtr] using new
    · simp [Locker.setCtr]
    · refine (setTask_of_ne differs).trans ?_
      by_cases same : o = t
      · rw [same, mine]
      · exact idle o same
  | entered found | acquired found | held found => cases missing.symm.trans found
  | releasing locked | closing locked => cases free.symm.trans locked

theorem Phase.acquire {l : Locker} (phase : s.Phase key t) (task : s.tasks t = .entered name i)
    (acquired : s.locker.acquire i = some l) :
    { s.setTask t (.acquired name i s.acquisitions) with
      locker := l, holder := Function.update s.holder i (some s.acquisitions),
      acquisitions := s.acquisitions + 1 : Locking
    }.Phase key t := by
  obtain ⟨_, rfl⟩ := Locker.acquire_eq acquired
  obtain ⟨found, opened, waiters, idle, ⟨task', nobody⟩ | ⟨_, task', _⟩⟩ := phase.calls (congrArg LockTask.waits task)
  · cases task.symm.trans task'
    refine .acquired found ?_ (fun j b => ?_) ?_ setTask_self fun o differs =>
      (setTask_of_ne differs).trans (idle o differs)
    · simpa [Open, Locker.setCtr] using opened
    · by_cases same : j = i
      · simp [same, eq_comm]
      · simp [same, nobody]
    · simpa [Locker.setCtr] using waiters
  · cases task.symm.trans task'

theorem Phase.dec {permits : Bytes → Nat} (phase : s.Phase key t) (task : s.tasks t = .acquired name i a) :
    { s.setTask t (.granted name i a) with locker := s.locker.dec i, permits : Locking }.Phase key t := by
  obtain ⟨found, opened, waiters, idle, ⟨task', _⟩ | ⟨_, task', taken⟩⟩ := phase.calls (congrArg LockTask.waits task)
  · cases task.symm.trans task'
  · cases task.symm.trans task'
    refine .held found ?_ taken ?_ ?_ ?_ fun o differs => (setTask_of_ne differs).trans (idle o differs)
    · simpa [Open, Locker.dec, Locker.setCtr] using opened
    · simp [Locker.dec, Locker.setCtr, waiters]
    · change ((s.setTask t _).tasks t).Left key
      rw [setTask_self]
      rfl
    · change ((s.setTask t _).tasks t).Guards _ i a
      rw [setTask_self]
      exact ⟨rfl, rfl⟩

/-- `unlock` finds the lock that is taken. Nobody waits for it, so it loses its name. -/
theorem Phase.unlock {timer : Option Nat} {l : Locker} {permits : Bytes → Nat} (phase : s.Phase key t)
    (free : s.mu = false) (nobody : ∀ tid, (s.tasks tid).waits = none) (unlocks : s.Unlocks tid key timer)
    (found : s.locker.unlockLook key = some (l, i)) : { s.setTask tid (.releasing timer key i) with
      locker := l, mu := true, permits, target := s.holder i : Locking }.Phase key t := by
  obtain ⟨there, rfl⟩ := Locker.unlockLook_found found
  cases phase with
  | held found opened taken waiters left guards idle =>
    cases there.symm.trans found
    have zero : (s.locker.ctrs i).count = 0 := by
      rw [LockCtr.count, waiters]
      rfl
    refine .releasing rfl ?_ opened taken ((taken i _).2 ⟨rfl, rfl⟩) setTask_self ?_
      fun o differs apart => (setTask_of_ne apart).trans (idle o differs)
    · rw [if_pos zero]
      exact Finmap.lookup_erase ..
    · cases unlocks with
      | client passive =>
        have apart : t ≠ tid := by
          rintro rfl
          rw [passive] at guards
          exact guards
        refine .inl ⟨rfl, ?_⟩
        change ((s.setTask tid _).tasks t).Left key ∧ ((s.setTask tid _).tasks t).Guards _ i _
        rw [setTask_of_ne apart]
        exact ⟨left, guards⟩
      | timer due =>
        obtain rfl : tid = t := by
          by_contra differs
          cases due.symm.trans (idle tid differs)
        rw [due] at guards
        exact .inr ⟨congrArg some guards.2, rfl⟩
  | free _ missing => cases missing.symm.trans there
  | entered _ _ _ _ task | acquired _ _ _ _ task => cases (congrArg LockTask.waits task).symm.trans (nobody t)
  | releasing locked | closing locked => cases free.symm.trans locked

/-- A goroutine inside `unlock` is the only one there. -/
theorem Phase.inside (phase : s.Phase key t) (inside : (s.tasks tid).Inside) :
    s.mu = true ∧ s.locker.locks.lookup key = none ∧ (∀ o, o ≠ t → o ≠ tid → s.tasks o = .idle) ∧
      ((∃ timer i a, s.tasks tid = .releasing timer key i ∧ s.Open i ∧ s.Taken i a ∧ s.target = some a ∧
        (timer = none ∧ (s.tasks t).Left key ∧ (s.tasks t).Guards s.locker.closed i a ∨ timer = some a ∧ tid = t)) ∨
      ∃ i, s.tasks tid = .closing i ∧ (s.locker.ctrs i).done < s.locker.channels ∧ (∀ i, s.holder i = none) ∧
        ((s.tasks t).Left key ∨ tid = t)) := by
  have busy (idle : s.tasks tid = .idle) : False := by rwa [idle] at inside
  have back (left : (s.tasks t).Left key) : tid ≠ t := by
    rintro rfl
    cases task : s.tasks tid with
    | releasing | closing => rwa [task] at left
    | idle | entered | acquired | granted | timing | waiting | due => rwa [task] at inside
  cases phase with
  | free _ _ _ left idle | held _ _ _ _ left _ idle => exact (busy (idle tid (back left))).elim
  | entered _ _ _ _ task idle | acquired _ _ _ _ task idle =>
    have differs : tid ≠ t := by
      rintro rfl
      rwa [task] at inside
    exact (busy (idle tid differs)).elim
  | @releasing u timer i a locked missing opened taken target task ends idle =>
    obtain rfl : tid = u := by
      by_contra apart
      rcases ends with ⟨_, left, _⟩ | ⟨_, rfl⟩
      · exact busy (idle tid (back left) apart)
      · exact busy (idle tid apart apart)
    exact ⟨locked, missing, idle, .inl ⟨timer, i, a, task, opened, taken, target, ends⟩⟩
  | @closing u i locked missing made nobody task ends idle =>
    obtain rfl : tid = u := by
      by_contra apart
      rcases ends with left | rfl
      · exact busy (idle tid (back left) apart)
      · exact busy (idle tid apart apart)
    exact ⟨locked, missing, idle, .inr ⟨i, task, made, nobody, ends⟩⟩

theorem Phase.release {timer : Option Nat} {l : Locker} (phase : s.Phase key t)
    (task : s.tasks tid = .releasing timer name i) (unlocked : s.locker.unlockMutex i = some l) :
    { s.setTask tid (.closing i) with locker := l, holder := Function.update s.holder i none : Locking }.Phase key
      t := by
  obtain ⟨_, rfl⟩ := Locker.unlockMutex_eq unlocked
  obtain ⟨locked, missing, idle, ⟨_, _, a, task', opened, taken, _, ends⟩ | ⟨_, task', _⟩⟩ :=
    phase.inside (by rw [task]; trivial)
  · cases task.symm.trans task'
    refine .closing locked missing ?_ (fun j => ?_) setTask_self ?_
      fun o differs apart => (setTask_of_ne apart).trans (idle o differs apart)
    · simpa [Open, Locker.setCtr] using opened.1
    · by_cases same : j = i
      · simp [same]
      · cases holder : s.holder j with
        | none => simp [same, holder]
        | some b => exact absurd ((taken j b).1 holder).1 same
    · rcases ends with ⟨_, left, _⟩ | ⟨_, mine⟩
      · by_cases mine : tid = t
        · exact .inr mine
        · refine .inl ?_
          change ((s.setTask tid _).tasks t).Left key
          rwa [setTask_of_ne (Ne.symm mine)]
      · exact .inr mine
  · cases task.symm.trans task'

theorem Phase.close (phase : s.Phase key t) (task : s.tasks tid = .closing i) :
    { s.setTask tid .idle with locker := s.locker.unlockClose i, mu := false : Locking }.Phase key t ∧
      (s.locker.ctrs i).done < s.locker.channels := by
  obtain ⟨_, missing, idle, ⟨_, _, _, task', _⟩ | ⟨_, task', made, nobody, ends⟩⟩ :=
    phase.inside (by rw [task]; trivial)
  · cases task.symm.trans task'
  · cases task.symm.trans task'
    have tasks := s.setTask_tasks tid .idle
    refine ⟨.free rfl missing nobody ?_ fun o differs => ?_, made⟩
    · change ((s.setTask tid .idle).tasks t).Left key
      rcases tasks t with ⟨_, same⟩ | ⟨differs, same⟩
      · rw [same]
        trivial
      · rw [same]
        exact ends.resolve_right (Ne.symm differs)
    · rcases tasks o with ⟨_, same⟩ | ⟨apart, same⟩
      · exact same
      · exact same.trans (idle o differs apart)

/-- The goroutine that has got the lock goes on as another one. -/
theorem Phase.go {child : Tid} (phase : s.Phase key t) (task : s.tasks t = .granted name i a) (named : name = key)
    (idle : s.tasks child = .idle) : ((s.setTask t .idle).setTask child (.timing name i a)).Phase key child := by
  have was : (s.tasks t).Left key := by rwa [task]
  refine phase.goOn was (.inr idle) ?_ (fun _ guards => ?_) fun o differs => ?_
  · rwa [Function.update_self]
  · rw [task] at guards
    rwa [Function.update_self]
  · refine (setTask_of_ne differs).trans ?_
    by_cases mine : o = t
    · rw [if_pos mine, mine]
      exact setTask_self
    · rw [if_neg mine]
      exact setTask_of_ne mine

/-- A timeout goroutine reads the channel of the lock that it minds, which is open. -/
theorem Phase.notifier (phase : s.Phase key t) (free : s.mu = false) (task : s.tasks t = .timing name i a)
    (named : name = key) : (s.setTask t (.waiting name i a (s.locker.unlockNotifier name))).Phase key t := by
  have was : (s.tasks t).Left key := by rwa [task]
  refine phase.setTask was named fun {j b} holder guards => ?_
  rw [task] at guards
  obtain ⟨rfl, rfl⟩ := guards
  obtain ⟨found, _, opened⟩ := phase.kept free holder
  refine ⟨rfl, rfl, _, ?_, opened⟩
  rw [Locker.unlockNotifier, named, found]
  rfl

/-- A timeout goroutine minds the key. -/
theorem Phase.left (phase : s.Phase key t) (at_ : s.tasks tid = current) (busy : current ≠ .idle)
    (outside : ¬ current.Inside) (returned : current.waits = none) : tid = t ∧ (s.tasks t).Left key := by
  obtain rfl := phase.who at_ busy outside
  refine ⟨rfl, ?_⟩
  subst at_
  cases phase with
  | free _ _ _ left | held _ _ _ _ left => exact left
  | entered _ _ _ _ task | acquired _ _ _ _ task => cases (congrArg LockTask.waits task).symm.trans returned
  | releasing _ _ _ _ _ task ends =>
    rcases ends with ⟨_, left, _⟩ | ⟨_, rfl⟩
    · exact left
    · rw [task] at outside
      exact absurd trivial outside
  | closing _ _ _ _ task ends =>
    rcases ends with left | rfl
    · exact left
    · rw [task] at outside
      exact absurd trivial outside

/-- What holds in every run with the condition. -/
structure Minded (key : Bytes) (s : Locking) : Prop where
  channels : ∀ c, s.locker.closed c = true → c < s.locker.channels
  phase : ∃ t, s.Phase key t

theorem Minded.step (minded : s.Minded key) (allowed : s.LocksAlone key label) (step : Step s label s') :
    s'.Minded key := by
  obtain ⟨channels, t, phase⟩ := minded
  cases step with
  | lock free =>
    obtain ⟨rfl, missing, none_⟩ := allowed
    refine ⟨fun c closed => ?_, _, phase.lock free missing none_ channels⟩
    rw [Locker.enter_new missing] at closed ⊢
    exact Nat.lt_succ_of_lt (channels c closed)
  | acquire task acquired =>
    obtain rfl := phase.who task nofun id
    refine ⟨?_, _, phase.acquire task acquired⟩
    obtain ⟨_, rfl⟩ := Locker.acquire_eq acquired
    exact channels
  | dec task =>
    obtain rfl := phase.who task nofun id
    exact ⟨channels, _, phase.dec task⟩
  | go task idle =>
    obtain ⟨rfl, left⟩ := phase.left task nofun id rfl
    exact ⟨channels, _, phase.go task (by rwa [task] at left) idle⟩
  | notifier free task =>
    obtain ⟨rfl, left⟩ := phase.left task nofun id rfl
    exact ⟨channels, _, phase.notifier free task (by rwa [task] at left)⟩
  | notified task closed =>
    obtain ⟨rfl, left⟩ := phase.left task nofun id rfl
    refine ⟨channels, _, phase.setTask left trivial fun _ guards => ?_⟩
    rw [task] at guards
    obtain ⟨_, _, _, ⟨⟩, opened⟩ := guards
    cases closed.symm.trans opened
  | expire task =>
    obtain ⟨rfl, left⟩ := phase.left task nofun id rfl
    refine ⟨channels, _, phase.setTask left ?_ fun _ guards => ?_⟩
    · rwa [task] at left
    · rw [task] at guards
      exact ⟨guards.1, guards.2.1⟩
  | noSuchLock free unlocks missing =>
    obtain ⟨rfl, _⟩ := allowed
    cases unlocks with
    | client idle =>
      refine ⟨channels, t, ?_⟩
      rw [Locking.setTask, ← idle, Function.update_eq_self]
      exact phase
    | timer due =>
      obtain ⟨rfl, left⟩ := phase.left due nofun id rfl
      refine ⟨channels, _, phase.setTask left trivial fun holder _ => ?_⟩
      rw [Locker.unlockLook, (phase.kept free holder).1] at missing
      cases missing
  | unlock free unlocks found =>
    obtain ⟨rfl, nobody⟩ := allowed
    refine ⟨?_, _, phase.unlock free nobody unlocks found⟩
    obtain ⟨_, rfl⟩ := Locker.unlockLook_found found
    exact channels
  | release task unlocked =>
    refine ⟨?_, _, phase.release task unlocked⟩
    obtain ⟨_, rfl⟩ := Locker.unlockMutex_eq unlocked
    exact channels
  | fatal =>
    refine ⟨channels, t, ?_⟩
    cases phase with
    | free free missing nobody left idle => exact .free free missing nobody left idle
    | entered found opened nobody waiters task idle => exact .entered found opened nobody waiters task idle
    | acquired found opened taken waiters task idle => exact .acquired found opened taken waiters task idle
    | held found opened taken waiters left guards idle => exact .held found opened taken waiters left guards idle
    | releasing locked missing opened taken target task ends idle =>
      exact .releasing locked missing opened taken target task ends idle
    | closing locked missing made nobody task ends idle => exact .closing locked missing made nobody task ends idle
  | @close tid i task =>
    obtain ⟨closed, made⟩ := phase.close task
    refine ⟨fun c gone => ?_, _, closed⟩
    rcases Function.update_cases s.locker.closed (s.locker.ctrs i).done true c with ⟨rfl, _⟩ | ⟨_, same⟩
    · exact made
    · exact channels c (same.symm.trans gone)

theorem Minded.start (started : system.init s) : s.Minded key := by
  obtain ⟨locker, free, idle, nobody, _, _⟩ := started
  refine ⟨fun c closed => ?_, 0, .free free ?_ nobody ?_ fun o _ => idle o⟩
  · rw [locker] at closed
    cases closed
  · rw [locker]
    rfl
  · rw [idle]
    trivial

end Locking

/-- If a key is locked only while nobody has it and the timeout goroutines of earlier calls have ended, and
unlocked only while nobody is in `lock`, the timeout goroutine of a call that has the lock is still going to
release it. The lock is taken away from the call only by an `Unlock` that has been made while the call had
it, or by its own timeout goroutine. -/
theorem acquisition_keeps_timer {key : Bytes} {labels : List LockStep} {s : Locking}
    (run : Locking.system.Run (Locking.LocksAlone key) labels s) :
    (∀ i a, s.holder i = some a → ∃ tid, (s.tasks tid).Guards s.locker.closed i a) ∧
      ∀ label s' i a, Locking.Step s label s' → s.holder i = some a → s'.holder i ≠ some a →
        ∃ tid timer name, label = .release tid ∧ s.tasks tid = .releasing timer name i ∧ s.target = some a ∧
          (timer = none ∨ timer = some a) := by
  have minded : s.Minded key := by
    refine run.invariant (Locking.Minded key) (fun s started => .start started) ?_
    rintro s label s' minded allowed ⟨_, step⟩
    exact minded.step allowed step
  obtain ⟨_, t, phase⟩ := minded
  refine ⟨fun i a holder => ?_, fun label s' i a step holder gone => ?_⟩
  · cases phase with
    | free _ _ nobody | entered _ _ nobody | closing _ _ _ nobody => cases (nobody i).symm.trans holder
    | acquired _ _ taken _ task =>
      refine ⟨t, ?_⟩
      rw [task]
      obtain ⟨rfl, rfl⟩ := (taken i a).1 holder
      exact ⟨rfl, rfl⟩
    | held _ _ taken _ _ guards =>
      obtain ⟨rfl, rfl⟩ := (taken i a).1 holder
      exact ⟨t, guards⟩
    | @releasing u _ _ _ _ _ _ taken _ task ends =>
      obtain ⟨rfl, rfl⟩ := (taken i a).1 holder
      rcases ends with ⟨_, _, guards⟩ | ⟨rfl, _⟩
      · exact ⟨t, guards⟩
      · refine ⟨u, ?_⟩
        rw [task]
        exact ⟨rfl, rfl⟩
  · cases step with
    | lock | dec | go | notifier | notified | expire | noSuchLock | unlock | fatal | close => exact absurd holder gone
    | acquire task =>
      -- Nobody has a lock when it is acquired.
      obtain rfl := phase.who task nofun id
      obtain ⟨_, _, _, _, ⟨_, nobody⟩ | ⟨_, task', _⟩⟩ := phase.calls (congrArg LockTask.waits task)
      · cases (nobody i).symm.trans holder
      · cases task.symm.trans task'
    | @release tid timer name j l task =>
      obtain ⟨_, _, _, ⟨_, _, b, task', _, taken, target, ends⟩ | ⟨_, task', _⟩⟩ :=
        phase.inside (by rw [task]; trivial)
      · cases task.symm.trans task'
        obtain ⟨rfl, rfl⟩ := (taken i a).1 holder
        exact ⟨tid, timer, key, rfl, task, target, ends.imp And.left And.left⟩
      · cases task.symm.trans task'

/-- A key is locked and its timeout goroutine waits. A client that unlocks the key ends the acquisition. -/
theorem lock_and_timer : ∃ s s', Locking.system.Run (Locking.LocksAlone [107])
    [.lock 0 [107], .acquire 0, .dec 0, .go 0 1, .notifier 1, .unlock 2 [107]] s ∧ s.holder 0 = some 0 ∧
      (∃ tid, (s.tasks tid).Guards s.locker.closed 0 0) ∧ Locking.Step s (.release 2) s' ∧ s'.holder 0 = none ∧
      s.target = some 0 := by
  have start : Locking.system.Run (Locking.LocksAlone [107]) [] idleLocking := .start idleLocking_init
  have locked := start.andThenAllowed (.lock 0 [107]) ⟨rfl, rfl, fun _ => id⟩ ⟨rfl, .lock rfl rfl⟩
  have acquired := locked.andThenAllowed (.acquire 0) trivial ⟨rfl, .acquire rfl rfl⟩
  have returned := acquired.andThenAllowed (.dec 0) trivial ⟨rfl, .dec rfl⟩
  have started := returned.andThenAllowed (.go 0 1) trivial ⟨rfl, .go rfl rfl⟩
  have waits := started.andThenAllowed (.notifier 1) trivial ⟨rfl, .notifier rfl rfl⟩
  have unlocks := waits.andThenAllowed (.unlock 2 [107]) ⟨rfl, fun tid => ?_⟩ ⟨rfl, .unlock rfl (.client rfl) rfl⟩
  · obtain ⟨guarded, ends⟩ := acquisition_keeps_timer unlocks
    refine ⟨_, _, unlocks, rfl, guarded 0 0 rfl, .release rfl rfl, rfl, ?_⟩
    obtain ⟨_, _, _, _, _, target, _⟩ := ends (.release 2) _ 0 0 (.release rfl rfl) rfl nofun
    exact target
  · by_cases first : tid = 0
    · subst first
      rfl
    · by_cases timer : tid = 1
      · subst timer
        rfl
      · simp [Locking.setTask, idleLocking, timer, LockTask.waits]

/-- While a key is locked, a second call waits for it, with a new channel in the lock. An `Unlock` closes that
channel. The second call gets the lock, its timeout goroutine finds the channel closed and ends. The
first one is still waiting. -/
theorem waiter_loses_timer : ∃ labels s, Locking.system.AnyRun labels s ∧ s.holder 0 = some 1 ∧
    (∀ tid, ¬ (s.tasks tid).Guards s.locker.closed 0 1) ∧ s.tasks 10 = .waiting [107] 0 0 (some 0) := by
  have r : Locking.system.AnyRun [] idleLocking := .start idleLocking_init
  have r := r.andThen (.lock 0 [107]) ⟨rfl, .lock rfl rfl⟩
  have r := r.andThen (.acquire 0) ⟨rfl, .acquire rfl rfl⟩
  have r := r.andThen (.dec 0) ⟨rfl, .dec rfl⟩
  have r := r.andThen (.go 0 10) ⟨rfl, .go rfl rfl⟩
  have r := r.andThen (.notifier 10) ⟨rfl, .notifier rfl rfl⟩
  have r := r.andThen (.lock 1 [107]) ⟨rfl, .lock rfl rfl⟩
  have r := r.andThen (.unlock 2 [107]) ⟨rfl, .unlock rfl (.client rfl) rfl⟩
  have r := r.andThen (.release 2) ⟨rfl, .release rfl rfl⟩
  have r := r.andThen (.close 2) ⟨rfl, .close rfl⟩
  have r := r.andThen (.acquire 1) ⟨rfl, .acquire rfl rfl⟩
  have r := r.andThen (.dec 1) ⟨rfl, .dec rfl⟩
  have r := r.andThen (.go 1 11) ⟨rfl, .go rfl rfl⟩
  have r := r.andThen (.notifier 11) ⟨rfl, .notifier rfl rfl⟩
  have r := r.andThen (.notified 11) ⟨rfl, .notified rfl rfl⟩
  refine ⟨_, _, r, rfl, fun tid minds => ?_, rfl⟩
  by_cases first : tid = 10
  · subst first
    obtain ⟨_, other, _⟩ := minds
    cases other
  · by_cases listed : tid = 0 ∨ tid = 1 ∨ tid = 2 ∨ tid = 11
    · rcases listed with rfl | rfl | rfl | rfl <;> exact minds
    · simp only [not_or] at listed
      simp [Locking.setTask, idleLocking, first, listed, LockTask.Guards] at minds

end Olric
