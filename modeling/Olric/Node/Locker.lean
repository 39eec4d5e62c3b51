import Mathlib.Data.Finmap
import Mathlib.Logic.Function.Basic
import Olric.Basic

namespace Olric

/-- A lock of a locker: whether its mutex is locked, the goroutines that wait for it, and the
channel that is closed when it is unlocked. -/
structure LockCtr where
  held : Bool
  waiters : Int
  done : Nat

/-- Locks by name. `made` lock objects and `channels` channels have been made so far; a goroutine
may still wait for a lock object that has no name any more. -/
structure Locker where
  locks : Finmap fun _ : Bytes => Nat
  ctrs : Nat → LockCtr
  made : Nat
  closed : Nat → Bool
  channels : Nat

def newLocker : Locker := ⟨∅, fun _ => ⟨false, 0, 0⟩, 0, fun _ => false, 0⟩

namespace Locker

variable (l : Locker) (name : Bytes) (i : Nat)

def length : Nat := l.locks.keys.card

def check : Bool := (l.locks.lookup name).isSome

def setCtr (ctr : LockCtr) : Locker := { l with ctrs := Function.update l.ctrs i ctr }

/-- The channel of the lock; a nil channel is `none`. -/
def unlockNotifier : Option Nat := (l.locks.lookup name).map fun i => (l.ctrs i).done

/-- The lock with the name, which is made if it does not exist. -/
def find : Locker × Nat :=
  match l.locks.lookup name with
  | some i => (l, i)
  | none => ({ l.setCtr l.made ⟨false, 0, 0⟩ with locks := l.locks.insert name l.made, made := l.made + 1 }, l.made)

/-- The part of `lock` under the mutex of the locker: there is one more waiter, and the lock gets
a new channel. -/
def enter : Locker × Nat :=
  let (found, i) := l.find name
  let ctr := found.ctrs i
  ({ found.setCtr i { ctr with waiters := ctr.waiters + 1, done := found.channels } with
    channels := found.channels + 1 }, i)

/-- `nameLock.lock()`, which waits while the mutex is locked. -/
def acquire : Option Locker :=
  if (l.ctrs i).held then none else some (l.setCtr i { l.ctrs i with held := true })

def dec : Locker := l.setCtr i { l.ctrs i with waiters := (l.ctrs i).waiters - 1 }

/-- The answer `false` is `ErrNoSuchLock`. Unlocking a mutex that is not locked is fatal. -/
def unlock : Option (Locker × Bool) :=
  match l.locks.lookup name with
  | none => some (l, false)
  | some i =>
    let ctr := l.ctrs i
    if ctr.held then
      some ({ l.setCtr i { ctr with held := false } with
        locks := if ctr.waiters = 0 then l.locks.erase name else l.locks
        closed := Function.update l.closed ctr.done true }, true)
    else none

end Locker

end Olric
