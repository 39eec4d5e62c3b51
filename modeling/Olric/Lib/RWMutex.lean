import Mathlib.Data.List.Count
import Mathlib.Logic.Function.Basic

/-- A readers-writer lock in the manner of Go's `sync.RWMutex`: a writer announces itself and then waits
for the readers that are inside, and from the announcement on new readers wait for the writer. A thread
can be among the readers several times. -/
structure RWMutex (Tid : Type*) where
  writer : Option Tid
  locked : Bool
  readers : List Tid

namespace RWMutex

section Operations

variable {Tid : Type*} [DecidableEq Tid] (mu : RWMutex Tid) (tid : Tid)

def free : RWMutex Tid := ⟨none, false, []⟩

/-- Nobody else uses the lock, before and after it is acquired. -/
def announcedBy : RWMutex Tid := ⟨some tid, false, []⟩

def heldBy : RWMutex Tid := ⟨some tid, true, []⟩

def announce : Option (RWMutex Tid) :=
  if mu.writer = none then some { mu with writer := some tid } else none

def acquire : Option (RWMutex Tid) :=
  if mu.writer = some tid ∧ mu.readers = [] then some { mu with locked := true } else none

def unlock : Option (RWMutex Tid) :=
  if mu.writer = some tid ∧ mu.locked = true then some { mu with writer := none, locked := false } else none

def rlock : Option (RWMutex Tid) :=
  if mu.writer = none then some { mu with readers := tid :: mu.readers } else none

def runlock : Option (RWMutex Tid) :=
  if tid ∈ mu.readers then some { mu with readers := mu.readers.erase tid } else none

end Operations

variable {Tid : Type*} {mu mu' : RWMutex Tid} {tid other : Tid}

@[simp]
theorem announce_free : (free : RWMutex Tid).announce tid = some (announcedBy tid) := rfl

theorem announce_eq (done : mu.announce tid = some mu') :
    mu.writer = none ∧ mu' = { mu with writer := some tid } := by
  unfold announce at done
  split at done
  next free => exact ⟨free, (Option.some.inj done).symm⟩
  · cases done

theorem rlock_eq (done : mu.rlock tid = some mu') :
    mu.writer = none ∧ mu' = { mu with readers := tid :: mu.readers } := by
  unfold rlock at done
  split at done
  next free => exact ⟨free, (Option.some.inj done).symm⟩
  · cases done

variable [DecidableEq Tid]

@[simp]
theorem acquire_announcedBy : (announcedBy tid).acquire tid = some (heldBy tid) := if_pos ⟨rfl, rfl⟩

@[simp]
theorem unlock_heldBy : (heldBy tid).unlock tid = some free := if_pos ⟨rfl, rfl⟩

theorem acquire_eq (done : mu.acquire tid = some mu') :
    mu.writer = some tid ∧ mu.readers = [] ∧ mu' = { mu with locked := true } := by
  unfold acquire at done
  split at done
  next alone => exact ⟨alone.1, alone.2, (Option.some.inj done).symm⟩
  · cases done

theorem unlock_eq (done : mu.unlock tid = some mu') :
    mu.writer = some tid ∧ mu.locked = true ∧ mu' = { mu with writer := none, locked := false } := by
  unfold unlock at done
  split at done
  next held => exact ⟨held.1, held.2, (Option.some.inj done).symm⟩
  · cases done

theorem runlock_eq (done : mu.runlock tid = some mu') :
    tid ∈ mu.readers ∧ mu' = { mu with readers := mu.readers.erase tid } := by
  unfold runlock at done
  split at done
  next inside => exact ⟨inside, (Option.some.inj done).symm⟩
  · cases done

/-- The lock is as the threads see it: as a writer a thread has nothing, or the announcement (`false`), or
the lock, and as a reader it is inside a number of times. -/
structure Agrees (mu : RWMutex Tid) (writing : Tid → Option Bool) (reading : Tid → Nat) : Prop where
  writer : ∀ {tid b}, writing tid = some b → mu.writer = some tid ∧ mu.locked = b
  unlocked : mu.writer = none → mu.locked = false
  readers : ∀ tid, mu.readers.count tid = reading tid
  alone : mu.locked = true → mu.readers = []

variable {writing : Tid → Option Bool} {reading : Tid → Nat}

theorem free_agrees : (free : RWMutex Tid).Agrees (fun _ => none) fun _ => 0 :=
  ⟨nofun, fun _ => rfl, fun _ => rfl, nofun⟩

namespace Agrees

/-- Who has the lock is the only writer. -/
theorem only_writer (agrees : mu.Agrees writing reading) {b b' : Bool} (mine : writing tid = some b)
    (others : writing other = some b') : other = tid :=
  Option.some.inj ((agrees.writer others).1.symm.trans (agrees.writer mine).1)

theorem no_reader (agrees : mu.Agrees writing reading) (mine : writing tid = some true) (other : Tid) :
    reading other = 0 := by
  rw [← agrees.readers, agrees.alone (agrees.writer mine).2, List.count_nil]

/-- With no writer, nobody thinks to be one. -/
theorem no_writer (agrees : mu.Agrees writing reading) (free : mu.writer = none) (tid : Tid) :
    writing tid = none := by
  cases thinks : writing tid with
  | none => rfl
  | some b => exact absurd (free.symm.trans (agrees.writer thinks).1) nofun

theorem announce (agrees : mu.Agrees writing reading) (done : mu.announce tid = some mu') :
    mu'.Agrees (Function.update writing tid (some false)) reading := by
  obtain ⟨free, rfl⟩ := announce_eq done
  refine ⟨fun {other b} thinks => ?_, nofun, agrees.readers, agrees.alone⟩
  by_cases same : other = tid
  · subst same
    rw [Function.update_self] at thinks
    cases thinks
    exact ⟨rfl, agrees.unlocked free⟩
  · rw [Function.update_of_ne same, agrees.no_writer free] at thinks
    cases thinks

theorem acquire (agrees : mu.Agrees writing reading) (done : mu.acquire tid = some mu') :
    mu'.Agrees (Function.update writing tid (some true)) reading := by
  obtain ⟨mine, gone, rfl⟩ := acquire_eq done
  refine ⟨fun {other b} thinks => ?_, fun free => absurd (mine.symm.trans free) nofun, agrees.readers, fun _ => gone⟩
  by_cases same : other = tid
  · subst same
    rw [Function.update_self] at thinks
    cases thinks
    exact ⟨mine, rfl⟩
  · rw [Function.update_of_ne same] at thinks
    exact absurd (Option.some.inj ((agrees.writer thinks).1.symm.trans mine)) same

theorem unlock (agrees : mu.Agrees writing reading) (done : mu.unlock tid = some mu') :
    mu'.Agrees (Function.update writing tid none) reading := by
  obtain ⟨mine, _, rfl⟩ := unlock_eq done
  refine ⟨fun {other b} thinks => ?_, fun _ => rfl, agrees.readers, nofun⟩
  by_cases same : other = tid
  · subst same
    rw [Function.update_self] at thinks
    cases thinks
  · rw [Function.update_of_ne same] at thinks
    exact absurd (Option.some.inj ((agrees.writer thinks).1.symm.trans mine)) same

theorem rlock (agrees : mu.Agrees writing reading) (done : mu.rlock tid = some mu') :
    mu'.Agrees writing (Function.update reading tid (reading tid + 1)) := by
  obtain ⟨free, rfl⟩ := rlock_eq done
  refine ⟨agrees.writer, agrees.unlocked, fun other => ?_, fun locked => ?_⟩
  · by_cases same : other = tid
    · subst same
      rw [Function.update_self, List.count_cons_self, agrees.readers]
    · rw [Function.update_of_ne same, List.count_cons_of_ne (Ne.symm same), agrees.readers]
  · exact absurd ((agrees.unlocked free).symm.trans locked) nofun

theorem runlock (agrees : mu.Agrees writing reading) (done : mu.runlock tid = some mu') :
    mu'.Agrees writing (Function.update reading tid (reading tid - 1)) := by
  obtain ⟨inside, rfl⟩ := runlock_eq done
  refine ⟨agrees.writer, agrees.unlocked, fun other => ?_, fun locked => ?_⟩
  · by_cases same : other = tid
    · subst same
      rw [Function.update_self, List.count_erase_self, agrees.readers]
    · rw [Function.update_of_ne same, List.count_erase_of_ne same, agrees.readers]
  · rw [agrees.alone locked] at inside
    cases inside

end Agrees

end RWMutex
