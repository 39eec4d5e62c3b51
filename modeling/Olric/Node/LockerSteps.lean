import Olric.Node.LockerSpec

namespace Olric

/-- `count()`. The counter has 32 bits, so it is the number of waiters only up to a multiple of 2^32. -/
def LockCtr.count (ctr : LockCtr) : Int32 := Int32.ofInt ctr.waiters

theorem LockCtr.count_eq_zero {ctr : LockCtr} (bottom : 0 ≤ ctr.waiters) (few : ctr.waiters < 2 ^ 32) :
    ctr.count = 0 ↔ ctr.waiters = 0 := by
  unfold LockCtr.count
  rw [← Int32.toInt_inj, Int32.toInt_ofInt]
  simp only [Int.bmod, Int32.toInt_zero, Int32.size]
  omega

namespace Locker

variable (l : Locker) (name : Bytes) (i : Nat)

/-- The first part of `unlock`: a lock that nobody waits for loses its name. -/
def unlockFind : Option (Locker × Nat) :=
  (l.locks.lookup name).map fun i =>
    ({ l with locks := if (l.ctrs i).waiters = 0 then l.locks.erase name else l.locks }, i)

/-- `nameLock.unlock()`. Unlocking a mutex that is not locked is fatal. -/
def unlockMutex : Option Locker :=
  if (l.ctrs i).held then some (l.setCtr i { l.ctrs i with held := false }) else none

/-- The last part of `unlock`: the channel of the lock is closed, unless it is already. -/
def unlockClose : Locker := { l with closed := Function.update l.closed (l.ctrs i).done true }

/-- The three parts make an `unlock`, if nobody comes between them. -/
theorem unlock_parts : l.unlock name = (l.unlockFind name).elim (some (l, false)) fun found =>
    (found.1.unlockMutex found.2).map fun freed => (freed.unlockClose found.2, true) := by
  unfold unlock unlockFind unlockMutex unlockClose setCtr
  cases found : l.locks.lookup name with
  | none => rfl
  | some i => by_cases held : (l.ctrs i).held <;> simp [held]

/-- The first part of `unlock`, with the counter as it is. -/
def unlockLook : Option (Locker × Nat) :=
  (l.locks.lookup name).map fun i =>
    ({ l with locks := if (l.ctrs i).count = 0 then l.locks.erase name else l.locks }, i)

variable {l name i}

/-- As long as the number of waiters fits, nothing is seen of its width. -/
theorem unlockLook_eq (bottom : ∀ i, l.locks.lookup name = some i → 0 ≤ (l.ctrs i).waiters)
    (few : ∀ i, l.locks.lookup name = some i → (l.ctrs i).waiters < 2 ^ 32) :
    l.unlockLook name = l.unlockFind name := by
  unfold unlockLook unlockFind
  cases found : l.locks.lookup name with
  | none => rfl
  | some i => simp [LockCtr.count_eq_zero (bottom i found) (few i found)]

theorem unlockLook_found {l' : Locker} (found : l.unlockLook name = some (l', i)) : l.locks.lookup name = some i ∧
    l' = { l with locks := if (l.ctrs i).count = 0 then l.locks.erase name else l.locks } := by
  obtain ⟨j, there, same⟩ := Option.map_eq_some_iff.1 found
  cases same
  exact ⟨there, rfl⟩

theorem unlockFind_eq {l' : Locker} (found : l.unlockFind name = some (l', i)) : l.locks.lookup name = some i ∧
    l' = { l with locks := if (l.ctrs i).waiters = 0 then l.locks.erase name else l.locks } := by
  obtain ⟨j, there, same⟩ := Option.map_eq_some_iff.1 found
  cases same
  exact ⟨there, rfl⟩

theorem unlockMutex_eq {l' : Locker} (unlocked : l.unlockMutex i = some l') :
    (l.ctrs i).held = true ∧ l' = l.setCtr i { l.ctrs i with held := false } := by
  unfold unlockMutex at unlocked
  split at unlocked
  next held =>
    cases unlocked
    exact ⟨held, rfl⟩
  · cases unlocked

theorem unlockMutex_none (fatal : l.unlockMutex i = none) : (l.ctrs i).held = false := by
  unfold unlockMutex at fatal
  split at fatal
  · cases fatal
  next free => simpa using free

end Locker

/-- What a goroutine is about to do with a locker. The acquisition of a lock has a number, and its
timeout goroutine gets it, too. -/
inductive LockTask
  | idle
  | entered (name : Bytes) (i : Nat)
  | acquired (name : Bytes) (i a : Nat)
  | granted (name : Bytes) (i a : Nat)
  | timing (name : Bytes) (i a : Nat)
  | waiting (name : Bytes) (i a : Nat) (channel : Option Nat)
  | due (name : Bytes) (i a : Nat)
  | releasing (timer : Option Nat) (name : Bytes) (i : Nat)
  | closing (i : Nat)

/-- A locker that goroutines use: `mu` is the mutex of the locker, while one of them is in `unlock`,
and `holder` is the acquisition that has the mutex of a lock. Of the past it is known how often `lock` has
returned for a name without an `unlock` for it since, and which acquisition had the lock when the
goroutine in `unlock` came there. -/
structure Locking where
  locker : Locker
  mu : Bool
  tasks : Tid → LockTask
  holder : Nat → Option Nat
  acquisitions : Nat
  permits : Bytes → Nat
  target : Option Nat
  crashed : Bool

/-- The atomic steps of `lock`, of `unlock` and of `waitLockForTimeout`. -/
inductive LockStep
  | lock (tid : Tid) (name : Bytes)
  | acquire (tid : Tid)
  | dec (tid : Tid)
  | go (tid child : Tid)
  | notifier (tid : Tid)
  | notified (tid : Tid)
  | expire (tid : Tid)
  | unlock (tid : Tid) (name : Bytes)
  | release (tid : Tid)
  | close (tid : Tid)

namespace Locking

def setTask (s : Locking) (tid : Tid) (task : LockTask) : Locking :=
  { s with tasks := Function.update s.tasks tid task }

/-- The goroutine calls `unlock`, on behalf of a client or at the end of a timeout. -/
inductive Unlocks (s : Locking) (tid : Tid) (name : Bytes) : Option Nat → Prop
  | client : s.tasks tid = .idle → Unlocks s tid name none
  | timer {i a} : s.tasks tid = .due name i a → Unlocks s tid name (some a)

/-- The first part of `lock` and all of `unlock` are under the mutex of the locker. Whoever has got a
lock starts the goroutine that waits for its timeout. -/
inductive Step : Locking → LockStep → Locking → Prop
  | lock {s tid name} : s.mu = false → s.tasks tid = .idle →
      Step s (.lock tid name)
        { s.setTask tid (.entered name (s.locker.enter name).2) with locker := (s.locker.enter name).1 }
  | acquire {s tid name i l} : s.tasks tid = .entered name i → s.locker.acquire i = some l →
      Step s (.acquire tid) { s.setTask tid (.acquired name i s.acquisitions) with
        locker := l, holder := Function.update s.holder i (some s.acquisitions), acquisitions := s.acquisitions + 1 }
  | dec {s tid name i a} : s.tasks tid = .acquired name i a →
      Step s (.dec tid) { s.setTask tid (.granted name i a) with
        locker := s.locker.dec i, permits := Function.update s.permits name (s.permits name + 1) }
  | go {s tid child name i a} : s.tasks tid = .granted name i a → s.tasks child = .idle →
      Step s (.go tid child) ((s.setTask tid .idle).setTask child (.timing name i a))
  | notifier {s tid name i a} : s.mu = false → s.tasks tid = .timing name i a →
      Step s (.notifier tid) (s.setTask tid (.waiting name i a (s.locker.unlockNotifier name)))
  | notified {s tid name i a c} : s.tasks tid = .waiting name i a (some c) → s.locker.closed c = true →
      Step s (.notified tid) (s.setTask tid .idle)
  | expire {s tid name i a channel} : s.tasks tid = .waiting name i a channel →
      Step s (.expire tid) (s.setTask tid (.due name i a))
  | noSuchLock {s tid name timer} : s.mu = false → s.Unlocks tid name timer → s.locker.unlockLook name = none →
      Step s (.unlock tid name) (s.setTask tid .idle)
  | unlock {s tid name timer l i} : s.mu = false → s.Unlocks tid name timer → s.locker.unlockLook name = some (l, i) →
      Step s (.unlock tid name) { s.setTask tid (.releasing timer name i) with
        locker := l, mu := true, permits := Function.update s.permits name (s.permits name - 1),
        target := s.holder i }
  | release {s tid timer name i l} : s.tasks tid = .releasing timer name i → s.locker.unlockMutex i = some l →
      Step s (.release tid) { s.setTask tid (.closing i) with locker := l, holder := Function.update s.holder i none }
  | fatal {s tid timer name i} : s.tasks tid = .releasing timer name i → s.locker.unlockMutex i = none →
      Step s (.release tid) { s with crashed := true }
  | close {s tid i} : s.tasks tid = .closing i →
      Step s (.close tid) { s.setTask tid .idle with locker := s.locker.unlockClose i, mu := false }

/-- A new locker that nobody uses. Nothing happens after a fatal error. -/
def system : Transitions Locking LockStep where
  init s := s.locker = newLocker ∧ s.mu = false ∧ (∀ tid, s.tasks tid = .idle) ∧ (∀ i, s.holder i = none) ∧
    (∀ name, s.permits name = 0) ∧ s.crashed = false
  step s label s' := s.crashed = false ∧ Step s label s'

end Locking

/-- The lock that the goroutine is counted for as a waiter. -/
def LockTask.waits : LockTask → Option Nat
  | .entered _ i | .acquired _ i _ => some i
  | _ => none

/-- The goroutine is inside `unlock`. -/
def LockTask.Inside : LockTask → Prop
  | .releasing .. | .closing _ => True
  | _ => False

namespace Locking

variable {s s' : Locking} {tid other child : Tid} {label : LockStep} {name : Bytes} {i a : Nat}
  {task task' : LockTask}

theorem setTask_tasks (s : Locking) (tid : Tid) (task : LockTask) (other : Tid) :
    other = tid ∧ (s.setTask tid task).tasks other = task ∨ other ≠ tid ∧
      (s.setTask tid task).tasks other = s.tasks other :=
  Function.update_cases s.tasks tid task other

theorem setTask_self : (s.setTask tid task).tasks tid = task := Function.update_self ..

theorem setTask_of_ne (differs : other ≠ tid) : (s.setTask tid task).tasks other = s.tasks other :=
  Function.update_of_ne differs ..

end Locking

def idleLocking : Locking := ⟨newLocker, false, fun _ => .idle, fun _ => none, 0, fun _ => 0, none, false⟩

theorem idleLocking_init : Locking.system.init idleLocking :=
  ⟨rfl, rfl, fun _ => rfl, fun _ => rfl, fun _ => rfl, rfl⟩

end Olric
