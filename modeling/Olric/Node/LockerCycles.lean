import Olric.Node.LockerUsers

namespace Olric

/-- What a thread is about to do that locks a name, works and unlocks the name again, over and over. -/
inductive CycleTask
  | idle
  | entered (name : Bytes) (i : Nat)
  | acquired (name : Bytes) (i : Nat)
  | inside (name : Bytes) (i : Nat)
  | releasing (i : Nat)
  | selecting (i : Nat)
  | closing (i : Nat)

namespace CycleTask

def role : CycleTask → LockRole
  | .entered name i => .entered name i
  | .acquired name i => .acquired name i
  | .inside name i => .inside name i
  | .releasing i => .releasing i
  | .idle | .selecting _ | .closing _ => .none

/-- The thread is in `unlock`. -/
def unlocking : CycleTask → Bool
  | .releasing _ | .selecting _ | .closing _ => true
  | _ => false

variable {task : CycleTask} {name : Bytes} {i : Nat}

theorem of_role_calls (calls : task.role.calls = some (name, i)) :
    task = .entered name i ∨ task = .acquired name i := by
  cases task with
  | entered =>
    cases calls
    exact .inl rfl
  | acquired =>
    cases calls
    exact .inr rfl
  | idle | inside | releasing | selecting | closing => cases calls

theorem of_role_inside (inside : task.role = .inside name i) : task = .inside name i := by
  cases task with
  | inside =>
    cases inside
    rfl
  | idle | entered | acquired | releasing | selecting | closing => cases inside

end CycleTask

/-- A locker and its threads. `mu` is the mutex of the locker while one of them is in `unlock`,
`noSuchLock` says that some `unlock` has returned this error, and `closings` is how often each channel
has been closed. -/
structure LockCycles where
  locker : Locker
  mu : Bool
  tasks : Tid → CycleTask
  noSuchLock : Bool
  closings : Nat → Nat
  crashed : Bool

inductive CycleStep
  | lock (tid : Tid) (name : Bytes)
  | acquire (tid : Tid)
  | dec (tid : Tid)
  | unlock (tid : Tid)
  | release (tid : Tid)
  | select (tid : Tid)
  | close (tid : Tid)

namespace LockCycles

def setTask (s : LockCycles) (tid : Tid) (task : CycleTask) : LockCycles :=
  { s with tasks := Function.update s.tasks tid task }

/-- The atomic steps of `lock` and of `unlock`. What a thread does under the mutex of the locker is one
step as far as no other thread can come between: those that are past it only lock the mutex of a lock and
decrement its counter. A thread unlocks the name that it has locked. -/
inductive Step : LockCycles → CycleStep → LockCycles → Prop
  | lock {s tid name} : s.mu = false → s.tasks tid = .idle →
      Step s (.lock tid name)
        { s.setTask tid (.entered name (s.locker.enter name).2) with locker := (s.locker.enter name).1 }
  | acquire {s tid name i l} : s.tasks tid = .entered name i → s.locker.acquire i = some l →
      Step s (.acquire tid) { s.setTask tid (.acquired name i) with locker := l }
  | dec {s tid name i} : s.tasks tid = .acquired name i →
      Step s (.dec tid) { s.setTask tid (.inside name i) with locker := s.locker.dec i }
  | noSuchLock {s tid name i} : s.mu = false → s.tasks tid = .inside name i → s.locker.unlockLook name = none →
      Step s (.unlock tid) { s.setTask tid .idle with noSuchLock := true }
  | unlock {s tid name i l j} : s.mu = false → s.tasks tid = .inside name i → s.locker.unlockLook name = some (l, j) →
      Step s (.unlock tid) { s.setTask tid (.releasing j) with locker := l, mu := true }
  | release {s tid i l} : s.tasks tid = .releasing i → s.locker.unlockMutex i = some l →
      Step s (.release tid) { s.setTask tid (.selecting i) with locker := l }
  | fatal {s tid i} : s.tasks tid = .releasing i → s.locker.unlockMutex i = none →
      Step s (.release tid) { s with crashed := true }
  | closed {s tid i} : s.tasks tid = .selecting i → s.locker.closed (s.locker.ctrs i).done = true →
      Step s (.select tid) { s.setTask tid .idle with mu := false }
  | default {s tid i} : s.tasks tid = .selecting i → s.locker.closed (s.locker.ctrs i).done = false →
      Step s (.select tid) (s.setTask tid (.closing i))
  | close {s tid i} : s.tasks tid = .closing i →
      Step s (.close tid) { s.setTask tid .idle with
        locker := s.locker.unlockClose i, mu := false
        closings := Function.update s.closings (s.locker.ctrs i).done (s.closings (s.locker.ctrs i).done + 1) }

/-- A new locker that nobody uses. Nothing happens after a fatal error. -/
def system : Transitions LockCycles CycleStep where
  init s := s.locker = newLocker ∧ s.mu = false ∧ (∀ tid, s.tasks tid = .idle) ∧ s.noSuchLock = false ∧
    (∀ c, s.closings c = 0) ∧ s.crashed = false
  step s label s' := s.crashed = false ∧ Step s label s'

/-- The thread is in the critical section of the name. -/
def Inside (s : LockCycles) (tid : Tid) (name : Bytes) : Prop := ∃ i, s.tasks tid = .inside name i

/-- The thread has called `lock` for the name, which has not returned. -/
def Waits (s : LockCycles) (tid : Tid) (name : Bytes) : Prop :=
  ∃ i, s.tasks tid = .entered name i ∨ s.tasks tid = .acquired name i

/-- Fewer than 2^32 threads wait for each name. -/
def Few (s : LockCycles) : Prop := ∀ name (W : Finset Tid), (∀ tid ∈ W, s.Waits tid name) → W.card < 2 ^ 32

/-- One thread at a time is in `unlock`, and a channel that is about to be closed is open. -/
structure Serial (s : LockCycles) : Prop where
  locked : ∀ {tid}, (s.tasks tid).unlocking = true → s.mu = true
  alone : ∀ {tid tid'}, (s.tasks tid).unlocking = true → (s.tasks tid').unlocking = true → tid' = tid
  pending : ∀ {tid i}, s.tasks tid = .closing i → s.locker.closed (s.locker.ctrs i).done = false
  closings : ∀ c, s.closings c = if s.locker.closed c then 1 else 0

/-- The locker is as the tasks of the threads say, and nothing has gone wrong. -/
structure Sound (s : LockCycles) : Prop where
  used : s.locker.Used (CycleTask.role ∘ s.tasks)
  serial : s.Serial
  noSuchLock : s.noSuchLock = false
  crashed : s.crashed = false

variable {s s' : LockCycles} {tid : Tid} {label : CycleStep} {name : Bytes} {i : Nat} {task : CycleTask}

/-- A step outside of `unlock`. -/
theorem Serial.outside {l : Locker} (serial : s.Serial) (after : task.unlocking = false)
    (closed : l.closed = s.locker.closed) (done : ∀ i, (l.ctrs i).done = (s.locker.ctrs i).done) :
    { s.setTask tid task with locker := l }.Serial := by
  have earlier {t} (now : (Function.update s.tasks tid task t).unlocking = true) : (s.tasks t).unlocking = true := by
    rcases Function.update_cases s.tasks tid task t with ⟨_, changed⟩ | ⟨_, kept⟩
    · rw [changed, after] at now
      cases now
    · rwa [kept] at now
  refine ⟨fun now => serial.locked (earlier now), fun now now' => serial.alone (earlier now) (earlier now'),
    fun {t i} now => ?_, fun c => ?_⟩
  · rcases Function.update_cases s.tasks tid task t with ⟨_, changed⟩ | ⟨_, kept⟩
    · rw [changed.symm.trans now] at after
      cases after
    · change l.closed (l.ctrs i).done = false
      rw [closed, done]
      exact serial.pending (kept.symm.trans now)
  · change s.closings c = if l.closed c then 1 else 0
    rw [closed]
    exact serial.closings c

/-- A step into, in or out of `unlock`. -/
theorem Serial.inside {l : Locker} {mu : Bool} {closings : Nat → Nat} (serial : s.Serial)
    (turn : s.mu = false ∨ (s.tasks tid).unlocking = true) (locked : task.unlocking = true → mu = true)
    (pending : ∀ i, task = .closing i → l.closed (l.ctrs i).done = false)
    (counted : ∀ c, closings c = if l.closed c then 1 else 0) :
    { s.setTask tid task with locker := l, mu, closings : LockCycles }.Serial := by
  have others {t} (differs : t ≠ tid) : (s.tasks t).unlocking = false := by
    rw [Bool.eq_false_iff]
    intro there
    rcases turn with free | mine
    · cases free.symm.trans (serial.locked there)
    · exact differs (serial.alone mine there)
  -- So only this thread can be in `unlock` afterwards.
  have only {t} (now : (Function.update s.tasks tid task t).unlocking = true) : t = tid ∧ task.unlocking = true := by
    rcases Function.update_cases s.tasks tid task t with ⟨same, changed⟩ | ⟨differs, kept⟩
    · rw [changed] at now
      exact ⟨same, now⟩
    · rw [kept, others differs] at now
      cases now
  refine ⟨fun now => locked (only now).2, fun now now' => (only now').1.trans (only now).1.symm, fun {t i} now =>
    ?_, counted⟩
  change Function.update s.tasks tid task t = _ at now
  have same : t = tid := (only (by rw [now]; rfl)).1
  subst same
  exact pending i ((Function.update_self ..).symm.trans now)

theorem Sound.start (started : system.init s) : s.Sound := by
  obtain ⟨locker, mu, idle, noSuchLock, closings, crashed⟩ := started
  have tasks : s.tasks = fun _ => .idle := funext idle
  refine ⟨?_, ⟨fun {t} now => ?_, fun {t t'} now => ?_, fun {t i} now => ?_, fun c => ?_⟩, noSuchLock, crashed⟩
  · rw [locker, tasks]
    exact Locker.newLocker_used
  · rw [idle] at now
    cases now
  · rw [idle] at now
    cases now
  · rw [idle] at now
    cases now
  · rw [locker]
    exact closings c

/-- A step of one thread. -/
theorem Sound.next {l : Locker} {mu : Bool} {closings : Nat → Nat} (sound : s.Sound)
    (used : l.Used (Function.update (CycleTask.role ∘ s.tasks) tid task.role))
    (serial : { s.setTask tid task with locker := l, mu, closings : LockCycles }.Serial) :
    { s.setTask tid task with locker := l, mu, closings : LockCycles }.Sound := by
  rw [← Function.comp_update] at used
  exact ⟨used, serial, sound.noSuchLock, sound.crashed⟩

theorem Sound.step (sound : s.Sound) (few : s.Few) (step : Step s label s') : s'.Sound := by
  have ⟨used, serial, _, _⟩ := sound
  cases step with
  | @lock tid name free idle =>
    refine sound.next (used.enter name (congrArg CycleTask.role idle))
      (serial.inside (.inl free) (by rintro ⟨⟩) (by rintro _ ⟨⟩) ?_)
    rw [Locker.enter_closed]
    exact serial.closings
  | @acquire tid name i l entered acquired =>
    have after := used.acquire (congrArg CycleTask.role entered) acquired
    obtain ⟨_, rfl⟩ := Locker.acquire_eq acquired
    exact sound.next after (serial.outside rfl rfl (Locker.setCtr_same (by rfl)))
  | @dec tid name i acquired =>
    exact sound.next (used.dec (congrArg CycleTask.role acquired))
      (serial.outside rfl rfl (Locker.setCtr_same (by rfl)))
  | @noSuchLock tid name i _ inside missing =>
    have found := used.uses.used (congrArg (LockRole.uses ∘ CycleTask.role) inside)
    simp [Locker.unlockLook, found] at missing
  | @unlock tid name i l j free inside found =>
    -- The counter tells whether somebody waits.
    have waiting (W : Finset Tid) (calls : ∀ t ∈ W, ∃ i, (s.tasks t).role.calls = some (name, i)) : W.card <
        2 ^ 32 := by
      refine few name W fun t there => ?_
      obtain ⟨i, call⟩ := calls t there
      exact ⟨i, CycleTask.of_role_calls call⟩
    obtain ⟨rfl, after⟩ := used.leave waiting (congrArg CycleTask.role inside) found
    obtain ⟨_, rfl⟩ := Locker.unlockLook_found found
    exact sound.next after (serial.inside (.inl free) (fun _ => rfl) (by rintro _ ⟨⟩) serial.closings)
  | @release tid i l releasing unlocked =>
    have turn : (s.tasks tid).unlocking = true := congrArg CycleTask.unlocking releasing
    have after := used.release (congrArg CycleTask.role releasing) unlocked
    obtain ⟨_, rfl⟩ := Locker.unlockMutex_eq unlocked
    exact sound.next after (serial.inside (.inr turn) (fun _ => serial.locked turn) (by rintro _ ⟨⟩) serial.closings)
  | @fatal tid i releasing unlocked =>
    have held := used.held (congrArg (LockRole.holds ∘ CycleTask.role) releasing)
    rw [Locker.unlockMutex_none unlocked] at held
    cases held
  | @closed tid i selecting _ =>
    exact sound.next (used.stays ((congrArg CycleTask.role selecting).trans rfl))
      (serial.inside (.inr (congrArg CycleTask.unlocking selecting)) (by rintro ⟨⟩) (by rintro _ ⟨⟩) serial.closings)
  | @default tid i selecting opened =>
    have turn : (s.tasks tid).unlocking = true := congrArg CycleTask.unlocking selecting
    refine sound.next (used.stays ((congrArg CycleTask.role selecting).trans rfl))
      (serial.inside (.inr turn) (fun _ => serial.locked turn) ?_ serial.closings)
    rintro _ ⟨⟩
    exact opened
  | @close tid i closing =>
    refine sound.next ((used.stays ((congrArg CycleTask.role closing).trans rfl)).unlockClose i)
      (serial.inside (.inr (congrArg CycleTask.unlocking closing)) (by rintro ⟨⟩) (by rintro _ ⟨⟩) fun c => ?_)
    have opened := serial.pending closing
    have count := serial.closings c
    by_cases same : c = (s.locker.ctrs i).done
    · subst same
      simpa [Locker.unlockClose, opened] using count
    · simpa [Locker.unlockClose, same] using count

theorem Sound.run {labels : List CycleStep} (run : system.Run (fun s _ => s.Few) labels s) : s.Sound :=
  run.invariant Sound (fun _ => Sound.start) fun _ _ _ sound few step => sound.step few step.2

end LockCycles

/-- As long as fewer than 2^32 threads wait for a name at the same time: one thread at a time is in the
critical section of a name, no `unlock` fails and no channel is closed twice, and a name that nobody holds
or waits for has no lock. -/
theorem lock_cycles_exclusive {labels : List CycleStep} {s : LockCycles}
    (run : LockCycles.system.Run (fun s _ => s.Few) labels s) :
    (∀ name tid tid', s.Inside tid name → s.Inside tid' name → tid' = tid) ∧ s.noSuchLock = false ∧
      (∀ c, s.closings c ≤ 1) ∧ s.crashed = false ∧
      ∀ name, (∀ tid, ¬ s.Waits tid name ∧ ¬ s.Inside tid name) → s.locker.check name = false := by
  have sound := LockCycles.Sound.run run
  refine ⟨fun name tid tid' inside inside' => ?_, sound.noSuchLock, fun c => ?_, sound.crashed, fun name unused => ?_⟩
  · obtain ⟨i, inside⟩ := inside
    obtain ⟨j, inside'⟩ := inside'
    have lock := sound.used.uses.used (congrArg (LockRole.uses ∘ CycleTask.role) inside)
    have lock' := sound.used.uses.used (congrArg (LockRole.uses ∘ CycleTask.role) inside')
    cases lock.symm.trans lock'
    exact sound.used.holds.alone (congrArg (LockRole.holds ∘ CycleTask.role) inside)
      (congrArg (LockRole.holds ∘ CycleTask.role) inside')
  · rw [sound.serial.closings]
    split <;> omega
  · rw [Locker.check, Option.isSome_eq_false_iff, Option.isNone_iff_eq_none, Option.eq_none_iff_forall_ne_some]
    intro i found
    obtain ⟨tid, mine⟩ := sound.used.uses.entry found
    obtain ⟨outside, absent⟩ := unused tid
    rcases LockRole.uses_cases mine with ⟨calls, _⟩ | inside
    · exact outside ⟨i, CycleTask.of_role_calls calls⟩
    · exact absent ⟨i, CycleTask.of_role_inside inside⟩

/-- The thread that takes the step. -/
def CycleStep.tid : CycleStep → Tid
  | .lock tid _ | .acquire tid | .dec tid | .unlock tid | .release tid | .select tid | .close tid => tid

namespace LockCycles

variable {s s' : LockCycles} {labels : List CycleStep} {label : CycleStep} {tid : Tid} {name : Bytes} {i n : Nat}

/-- The other threads stay where they are. -/
theorem Step.others (step : Step s label s') (differs : tid ≠ label.tid) : s'.tasks tid = s.tasks tid := by
  cases step with
  | fatal => rfl
  | lock | acquire | dec | noSuchLock | unlock | release | closed | default | close =>
    exact Function.update_of_ne differs ..

theorem idle_unused (idle : s.tasks tid = .idle) : ¬ s.Waits tid name ∧ ¬ s.Inside tid name := by
  refine ⟨fun ⟨i, waiting⟩ => ?_, fun ⟨i, inside⟩ => ?_⟩
  · rcases waiting with entered | acquired
    · cases idle.symm.trans entered
    · cases idle.symm.trans acquired
  · cases idle.symm.trans inside

/-- Only the first thread does something. -/
def Solo (s : LockCycles) : Prop := ∀ tid, tid ≠ 0 → s.tasks tid = .idle

theorem Solo.few (solo : s.Solo) : s.Few := by
  intro name W waiting
  have only : W ⊆ {0} := by
    intro tid there
    rw [Finset.mem_singleton]
    by_contra differs
    exact (idle_unused (solo tid differs)).1 (waiting tid there)
  have card := Finset.card_le_card only
  rw [Finset.card_singleton] at card
  omega

theorem Solo.run (run : system.Run (fun _ label => label.tid = 0) labels s) :
    s.Solo ∧ system.Run (fun s _ => s.Few) labels s := by
  induction run with
  | start started => exact ⟨fun tid _ => started.2.2.1 tid, .start started⟩
  | next _ first step ih =>
    obtain ⟨solo, run⟩ := ih
    refine ⟨fun tid differs => ?_, run.next solo.few step⟩
    rw [step.2.others (first ▸ differs)]
    exact solo tid differs

end LockCycles

def idleCycles : LockCycles := ⟨newLocker, false, fun _ => .idle, false, fun _ => 0, false⟩

theorem idleCycles_init : LockCycles.system.init idleCycles := ⟨rfl, rfl, fun _ => rfl, rfl, fun _ => rfl, rfl⟩

/-- One thread locks a name and unlocks it again. -/
theorem lock_cycle_alone : ∃ s, LockCycles.system.Run (fun s _ => s.Few)
    [.lock 0 [107], .acquire 0, .dec 0, .unlock 0, .release 0, .select 0, .close 0] s ∧
      s.closings 0 = 1 ∧ s.noSuchLock = false ∧ s.locker.check [107] = false := by
  have start : LockCycles.system.Run (fun _ label => label.tid = 0) [] idleCycles := .start idleCycles_init
  have entered := start.andThenAllowed (.lock 0 [107]) rfl ⟨rfl, .lock rfl rfl⟩
  have acquired := entered.andThenAllowed (.acquire 0) rfl ⟨rfl, .acquire rfl rfl⟩
  have inside := acquired.andThenAllowed (.dec 0) rfl ⟨rfl, .dec rfl⟩
  have releasing := inside.andThenAllowed (.unlock 0) rfl ⟨rfl, .unlock rfl rfl rfl⟩
  have selecting := releasing.andThenAllowed (.release 0) rfl ⟨rfl, .release rfl rfl⟩
  have closing := selecting.andThenAllowed (.select 0) rfl ⟨rfl, .default rfl rfl⟩
  have done := closing.andThenAllowed (.close 0) rfl ⟨rfl, .close rfl⟩
  obtain ⟨solo, run⟩ := LockCycles.Solo.run done
  obtain ⟨_, noSuchLock, _, _, unused⟩ := lock_cycles_exclusive run
  refine ⟨_, run, rfl, noSuchLock, unused [107] fun tid => ?_⟩
  by_cases first : tid = 0
  · subst first
    exact LockCycles.idle_unused rfl
  · exact LockCycles.idle_unused (solo tid first)

namespace LockCycles

variable {s : LockCycles} {tid : Tid} {name : Bytes} {i n : Nat}

/-- A thread that waits for a lock which is free gets it. -/
theorem gets_inside (reach : system.Reachable s) (sound : s.crashed = false) (entered : s.tasks tid = .entered name i)
    (free : (s.locker.ctrs i).held = false) : ∃ s', system.Reachable s' ∧ s'.Inside tid name ∧
      (∀ other, other ≠ tid → s'.tasks other = s.tasks other) ∧ s'.locker.locks = s.locker.locks ∧ s'.mu = s.mu ∧
      s'.crashed = false := by
  have acquire : s.locker.acquire i = some (s.locker.setCtr i { s.locker.ctrs i with held := true }) := by
    simp [Locker.acquire, free]
  have acquired := reach.andThen (.acquire tid) ⟨sound, .acquire entered acquire⟩
  have inside := acquired.andThen (.dec tid) ⟨sound, .dec (Function.update_self ..)⟩
  refine ⟨_, inside, ⟨i, Function.update_self ..⟩, fun other differs => ?_, rfl, rfl, sound⟩
  exact (Function.update_of_ne differs ..).trans (Function.update_of_ne differs ..)

/-- A thread unlocks the name that it has locked. -/
theorem gets_outside {l : Locker} (reach : system.Reachable s) (sound : s.crashed = false) (free : s.mu = false)
    (inside : s.tasks tid = .inside name i) (look : s.locker.unlockLook name = some (l, i))
    (held : (l.ctrs i).held = true)
    (opened : ∀ c, l.closed c = false) : ∃ s', system.Reachable s' ∧ s'.tasks tid = .idle ∧
      (∀ other, other ≠ tid → s'.tasks other = s.tasks other) ∧ s'.locker.locks = l.locks ∧
      (s'.locker.ctrs i).held = false ∧ s'.mu = false ∧ s'.crashed = false := by
  have unlock : l.unlockMutex i = some (l.setCtr i { l.ctrs i with held := false }) := if_pos held
  have releasing := reach.andThen (.unlock tid) ⟨sound, .unlock free inside look⟩
  have selecting := releasing.andThen (.release tid) ⟨sound, .release (Function.update_self ..) unlock⟩
  have closing := selecting.andThen (.select tid) ⟨sound, .default (Function.update_self ..) (opened _)⟩
  have done := closing.andThen (.close tid) ⟨sound, .close (Function.update_self ..)⟩
  refine ⟨_, done, Function.update_self .., fun other differs => ?_, rfl, ?_, rfl, sound⟩
  · simp [setTask, differs]
  · change (Function.update l.ctrs i { l.ctrs i with held := false } i).held = false
    rw [Function.update_self]

/-- The first thread is in the critical section of a name, and the next `n` wait for it. -/
structure Crowd (n : Nat) (s : LockCycles) : Prop where
  inside : s.tasks 0 = .inside [107] 0
  entered : ∀ tid, 0 < tid → tid ≤ n → s.tasks tid = .entered [107] 0
  idle : ∀ tid, n < tid → s.tasks tid = .idle
  lock : s.locker.locks.lookup [107] = some 0
  waiters : (s.locker.ctrs 0).waiters = n
  held : (s.locker.ctrs 0).held = true
  opened : ∀ c, s.locker.closed c = false
  free : s.mu = false
  sound : s.crashed = false

theorem crowd_start : ∃ s, system.Reachable s ∧ s.Crowd 0 := by
  have start : system.Reachable idleCycles := .start idleCycles_init
  have entered := start.andThen (.lock 0 [107]) ⟨rfl, .lock rfl rfl⟩
  have acquired := entered.andThen (.acquire 0) ⟨rfl, .acquire rfl rfl⟩
  have inside := acquired.andThen (.dec 0) ⟨rfl, .dec rfl⟩
  refine ⟨_, inside, rfl, fun tid positive bound => ?_, fun tid positive => ?_, rfl, rfl, rfl, fun _ => rfl, rfl, rfl⟩
  · exact absurd bound (Nat.not_le.2 positive)
  · simp [setTask, idleCycles, Nat.ne_of_gt positive]

theorem Crowd.grows (reach : system.Reachable s) (crowd : s.Crowd n) :
    ∃ s', system.Reachable s' ∧ s'.Crowd (n + 1) := by
  have joined :=
    reach.andThen (.lock (n + 1) [107]) ⟨crowd.sound, .lock crowd.free (crowd.idle _ (Nat.lt_succ_self n))⟩
  rw [Locker.enter_found crowd.lock] at joined
  refine ⟨_, joined, ?_, fun tid positive bound => ?_, fun tid beyond => ?_, crowd.lock, ?_, ?_, crowd.opened,
    crowd.free, crowd.sound⟩
  · simpa [setTask] using crowd.inside
  · rcases Function.update_cases s.tasks (n + 1) (.entered [107] 0) tid with ⟨_, changed⟩ | ⟨differs, kept⟩
    · exact changed
    · exact kept.trans (crowd.entered tid positive (Nat.le_of_lt_succ (Nat.lt_of_le_of_ne bound differs)))
  · exact (Function.update_of_ne (Nat.ne_of_gt beyond) ..).trans (crowd.idle tid (Nat.lt_of_succ_lt beyond))
  · simp [Locker.setCtr, crowd.waiters]
  · simp [Locker.setCtr, crowd.held]

theorem crowd_gathers (n : Nat) : ∃ s, system.Reachable s ∧ s.Crowd n := by
  induction n with
  | zero => exact crowd_start
  | succ n ih =>
    obtain ⟨s, reach, crowd⟩ := ih
    exact crowd.grows reach

end LockCycles

/-- With 2^32 waiting threads the counter is zero again, and the name is deleted under them. -/
theorem crowd_gets_inside : ∃ s name, LockCycles.system.Reachable s ∧ s.Inside 0 name ∧ s.Inside 1 name := by
  obtain ⟨s₀, reach₀, crowd⟩ := LockCycles.crowd_gathers (2 ^ 32)
  have look : s₀.locker.unlockLook [107] = some ({ s₀.locker with locks := s₀.locker.locks.erase [107] }, 0) := by
    have wraps : Int32.ofInt (2 ^ 32 : Nat) = 0 := by decide
    simp only [Locker.unlockLook, crowd.lock, LockCtr.count, crowd.waiters, wraps, if_true, Option.map_some]
  obtain ⟨s₁, reach₁, idle, others, locks, free, mu, sound⟩ :=
    LockCycles.gets_outside reach₀ crowd.sound crowd.free crowd.inside look crowd.held crowd.opened
  have waiting : s₁.tasks 1 = .entered [107] 0 := (others 1 one_ne_zero).trans (crowd.entered 1 one_pos (by decide))
  obtain ⟨s₂, reach₂, ⟨i, inside⟩, others, locks', mu', sound⟩ := LockCycles.gets_inside reach₁ sound waiting free
  -- The name has no lock, so the first thread makes a new one.
  have missing : s₂.locker.locks.lookup [107] = none := by
    rw [locks', locks]
    exact Finmap.lookup_erase ..
  have entered := reach₂.andThen (.lock 0 [107]) ⟨sound, .lock (mu'.trans mu) ((others 0 zero_ne_one).trans idle)⟩
  rw [Locker.enter_new missing] at entered
  obtain ⟨s₃, reach₃, inside', others, _⟩ :=
    LockCycles.gets_inside entered sound (Function.update_self ..) (by simp [Locker.setCtr])
  refine ⟨s₃, [107], reach₃, inside', i, ?_⟩
  rw [others 1 one_ne_zero]
  simpa [LockCycles.setTask] using inside

end Olric
