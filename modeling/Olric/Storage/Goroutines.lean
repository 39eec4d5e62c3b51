import Olric.Lib.RWMutex
import Olric.Storage.Calls
import Olric.Storage.Lifetime

namespace Olric

/-- The calls that take the lock of a storage for writing. `observe` stands for those that change
nothing, `Len` and `Export`, and `merge` is a call of `chunkedMergeTables` by the merge goroutine. -/
inductive WriteOp
  | put (hkey : UInt64) (value : VData)
  | putRaw (hkey : UInt64) (raw : Bytes)
  | observe
  | merge
  | close
deriving DecidableEq

/-- The calls that take it for reading. `get` stands for `Get`, `GetRaw` and `Check`. -/
inductive ReadOp
  | get (hkey : UInt64)
  | delete (hkey : UInt64)
  | range
deriving DecidableEq

/-- What a goroutine is about to do. A writer has announced itself when it is `acquiring`. `Close` waits
for the merge goroutine between `inside` and `closing`. A call is `nested` if the callback of `Range` makes
it, and `merged` is the answer of `chunkedMergeTables`. -/
inductive StorageTask
  | idle
  | locking (op : WriteOp)
  | acquiring (op : WriteOp)
  | inside (op : WriteOp)
  | waiting
  | closing
  | unlocking (merged : Option Bool)
  | selecting
  | resetting
  | finishing
  | rlocking (op : ReadOp) (nested : Bool)
  | rinside (op : ReadOp) (nested : Bool)
  | runlocking (nested : Bool)
deriving DecidableEq

/-- A storage that goroutines use, with its lock and its wait group. -/
structure Goroutines where
  str : Storage
  mu : RWMutex Nat
  wg : Nat
  tasks : Nat → StorageTask

/-- The steps, by the goroutines that take them. A section comes with the storage that it leaves behind. -/
inductive GoroutineStep
  | call (tid : Nat) (task : StorageTask)
  | announce (tid : Nat)
  | acquire (tid : Nat)
  | work (tid : Nat) (str : Storage)
  | start (tid child : Nat) (str : Storage)
  | merge (tid : Nat)
  | cancel (tid : Nat)
  | wait (tid : Nat)
  | free (tid : Nat)
  | unlock (tid : Nat)
  | tick (tid : Nat)
  | cancelled (tid : Nat)
  | reset (tid : Nat)
  | finish (tid : Nat)
  | rlock (tid : Nat)
  | visit (tid : Nat) (hkey : UInt64)
  | leave (tid : Nat)
  | runlock (tid : Nat)

namespace StorageTask

/-- A call from outside. -/
inductive Call : StorageTask → Prop
  | write {op} : op ≠ .merge → Call (.locking op)
  | read {op} : Call (.rlocking op false)

/-- After an unlock: `mergeTables` returns when the tables are merged, and waits in its `select` when
they are not. -/
def afterUnlock : Option Bool → StorageTask
  | none => .idle
  | some true => .resetting
  | some false => .selecting

/-- After a nested call the loop of `Range` goes on. -/
def afterRUnlock : Bool → StorageTask
  | false => .idle
  | true => .rinside .range false

end StorageTask

namespace Storage

/-- What a call other than `Close` and the merge does to the storage while it has the lock, as one step.
`Delete` writes although it has the lock for reading only: what other readers see of a delete that is
under way, and that Go calls this a data race, is left out. -/
inductive Section (s : Storage) : StorageTask → StorageTask → Storage → Prop
  | put {hkey value mmaps s' err} : s.put mmaps hkey value = .ok (s', err) →
      Section s (.inside (.put hkey value)) (.unlocking none) s'
  | putRaw {hkey raw mmaps s' err} : s.putRaw mmaps hkey raw = .ok (s', err) →
      Section s (.inside (.putRaw hkey raw)) (.unlocking none) s'
  | observe : Section s (.inside .observe) (.unlocking none) s
  | get {hkey nested answer} : s.get hkey = .ok answer →
      Section s (.rinside (.get hkey) nested) (.runlocking nested) s
  | delete {hkey nested mmapOk s' err} : s.delete mmapOk hkey = .ok (s', err) →
      Section s (.rinside (.delete hkey) nested) (.runlocking nested) s'

/-- The first part of `Close`, before it waits for the merge goroutine. -/
def cancel (s : Storage) : Storage := { s with closed := true }

/-- The last part of `Close`. A failed munmap leaves the tables where they are. -/
def free (s : Storage) (munmapOk : Bool) : Storage := if munmapOk then { s with tables := [] } else s

/-- The two parts make a `close`, if the merge goroutine does not come between them. -/
theorem close_parts (s : Storage) (munmapOk : Bool) :
    (s.close munmapOk).1 = if s.closed then s else s.cancel.free munmapOk := by
  unfold close cancel free
  split
  · rfl
  · cases munmapOk <;> rfl

end Storage

namespace Goroutines

def setTask (s : Goroutines) (tid : Nat) (task : StorageTask) : Goroutines :=
  { s with tasks := Function.update s.tasks tid task }

/-- The atomic steps of the calls and of `mergeTables`. A section that sets the merging flag has started
the merge goroutine. The callback of `Range` calls `Delete` for keys that it is given. A panic ends the
program, so that there is no step. -/
inductive Step : Goroutines → GoroutineStep → Goroutines → Prop
  | call {s tid task} : s.tasks tid = .idle → task.Call → Step s (.call tid task) (s.setTask tid task)
  | announce {s tid op mu} : s.tasks tid = .locking op → s.mu.announce tid = some mu →
      Step s (.announce tid) { s.setTask tid (.acquiring op) with mu }
  | acquire {s tid op mu} : s.tasks tid = .acquiring op → s.mu.acquire tid = some mu →
      Step s (.acquire tid) { s.setTask tid (.inside op) with mu }
  | work {s tid task str} : s.str.Section (s.tasks tid) task str → str.merging = s.str.merging →
      Step s (.work tid str) { s.setTask tid task with str }
  | start {s tid child task str} : s.str.Section (s.tasks tid) task str → s.str.merging = false → str.merging = true →
      s.tasks child = .idle →
      Step s (.start tid child str) { (s.setTask tid task).setTask child (.locking .merge) with str, wg := s.wg + 1 }
  | merge {s tid order mmapOk merged str} : s.tasks tid = .inside .merge → s.str.MergeOrder order →
      s.str.chunkedMergeTables order mmapOk = .ok (merged, str) →
      Step s (.merge tid) { s.setTask tid (.unlocking (some merged)) with str }
  | closedBefore {s tid} : s.tasks tid = .inside .close → s.str.closed = true →
      Step s (.cancel tid) (s.setTask tid (.unlocking none))
  | cancel {s tid} : s.tasks tid = .inside .close → s.str.closed = false →
      Step s (.cancel tid) { s.setTask tid .waiting with str := s.str.cancel }
  | wait {s tid} : s.tasks tid = .waiting → s.wg = 0 → Step s (.wait tid) (s.setTask tid .closing)
  | free {s tid munmapOk} : s.tasks tid = .closing →
      Step s (.free tid) { s.setTask tid (.unlocking none) with str := s.str.free munmapOk }
  | unlock {s tid merged mu} : s.tasks tid = .unlocking merged → s.mu.unlock tid = some mu →
      Step s (.unlock tid) { s.setTask tid (StorageTask.afterUnlock merged) with mu }
  | tick {s tid} : s.tasks tid = .selecting → Step s (.tick tid) (s.setTask tid (.locking .merge))
  | cancelled {s tid} : s.tasks tid = .selecting → s.str.closed = true →
      Step s (.cancelled tid) (s.setTask tid .resetting)
  | reset {s tid} : s.tasks tid = .resetting →
      Step s (.reset tid) { s.setTask tid .finishing with str := { s.str with merging := false } }
  | finish {s tid} : s.tasks tid = .finishing → Step s (.finish tid) { s.setTask tid .idle with wg := s.wg - 1 }
  | rlock {s tid op nested mu} : s.tasks tid = .rlocking op nested → s.mu.rlock tid = some mu →
      Step s (.rlock tid) { s.setTask tid (.rinside op nested) with mu }
  | visit {s tid hkey} : s.tasks tid = .rinside .range false → (∃ t ∈ s.str.tables, hkey ∈ t.hkeys) →
      Step s (.visit tid hkey) (s.setTask tid (.rlocking (.delete hkey) true))
  | leave {s tid} : s.tasks tid = .rinside .range false → Step s (.leave tid) (s.setTask tid (.runlocking false))
  | runlock {s tid nested mu} : s.tasks tid = .runlocking nested → s.mu.runlock tid = some mu →
      Step s (.runlock tid) { s.setTask tid (StorageTask.afterRUnlock nested) with mu }

/-- A new storage that nobody uses. -/
def system : Transitions Goroutines GoroutineStep where
  init s := (∃ mmapOk size, Storage.new mmapOk size = .ok s.str) ∧ s.mu = .free ∧ s.wg = 0 ∧ ∀ tid,
    s.tasks tid = .idle
  step := Step

variable {s s' : Goroutines} {tid other : Nat} {label : GoroutineStep} {task : StorageTask}

theorem setTask_tasks (s : Goroutines) (tid : Nat) (task : StorageTask) (other : Nat) :
    other = tid ∧ (s.setTask tid task).tasks other = task ∨ other ≠ tid ∧
      (s.setTask tid task).tasks other = s.tasks other :=
  Function.update_cases s.tasks tid task other

theorem setTask_self (s : Goroutines) (tid : Nat) (task : StorageTask) : (s.setTask tid task).tasks tid = task :=
  Function.update_self ..

theorem setTask_of_ne (differs : other ≠ tid) : (s.setTask tid task).tasks other = s.tasks other :=
  Function.update_of_ne differs ..

end Goroutines

open StorageTask in
/-- What a goroutine has of the lock as a writer: the announcement or the lock. -/
def StorageTask.writing : StorageTask → Option Bool
  | acquiring _ => some false
  | inside _ | waiting | closing | unlocking _ => some true
  | _ => none

/-- How often a goroutine is among the readers. -/
def StorageTask.reading : StorageTask → Nat
  | .rlocking _ nested => nested.toNat
  | .rinside _ nested | .runlocking nested => nested.toNat + 1
  | _ => 0

namespace Storage

variable {s s' : Storage} {task task' : StorageTask}

/-- A section is under the lock, of which it keeps what it has. -/
theorem Section.holds (work : s.Section task task' s') :
    (task.writing = some true ∨ 0 < task.reading) ∧ task'.writing = task.writing ∧ task'.reading = task.reading := by
  cases work with
  | put | putRaw | observe => exact ⟨.inl rfl, rfl, rfl⟩
  | get | delete => exact ⟨.inr (Nat.succ_pos _), rfl, rfl⟩

theorem Section.closed (work : s.Section task task' s') : s'.closed = s.closed := by
  cases work with
  | put done | putRaw done => exact (retry_open done).1
  | observe | get => rfl
  | delete done => exact (delete_open done).1

end Storage

namespace Goroutines

variable {s s' : Goroutines} {tid other : Nat} {label : GoroutineStep} {task : StorageTask}

/-- The goroutine that a section starts is another one. -/
theorem child_ne {child : Nat} {str : Storage} (work : s.str.Section (s.tasks tid) task str)
    (idle : s.tasks child = .idle) : child ≠ tid := by
  rintro rfl
  rw [idle] at work
  cases work

/-- The lock is as the goroutines see it. -/
def Locked (s : Goroutines) : Prop := s.mu.Agrees (StorageTask.writing ∘ s.tasks) (StorageTask.reading ∘ s.tasks)

theorem comp_setTask {α : Type} (f : StorageTask → α) (s : Goroutines) (tid : Nat) (task : StorageTask) :
    f ∘ (s.setTask tid task).tasks = Function.update (f ∘ s.tasks) tid (f task) :=
  Function.comp_update ..

/-- What a step does not change of its task it changes of no task. -/
theorem comp_setTask_same {α : Type} {f : StorageTask → α} (same : f task = f (s.tasks tid)) :
    f ∘ (s.setTask tid task).tasks = f ∘ s.tasks := by
  rw [comp_setTask, same]
  exact Function.update_eq_self tid (f ∘ s.tasks)

/-- A step that leaves the lock alone. -/
theorem Locked.keep (locked : s.Locked) (writing : task.writing = (s.tasks tid).writing)
    (reading : task.reading = (s.tasks tid).reading) (str : Storage) (wg : Nat) :
    { s.setTask tid task with str, wg : Goroutines }.Locked := by
  change s.mu.Agrees (StorageTask.writing ∘ (s.setTask tid task).tasks)
    (StorageTask.reading ∘ (s.setTask tid task).tasks)
  rw [comp_setTask_same writing, comp_setTask_same reading]
  exact locked

theorem locked_writer {mu : RWMutex Nat} (reading : task.reading = (s.tasks tid).reading)
    (agrees : mu.Agrees (Function.update (StorageTask.writing ∘ s.tasks) tid task.writing)
      (StorageTask.reading ∘ s.tasks)) :
    { s.setTask tid task with mu : Goroutines }.Locked := by
  change mu.Agrees (StorageTask.writing ∘ (s.setTask tid task).tasks)
    (StorageTask.reading ∘ (s.setTask tid task).tasks)
  rw [comp_setTask, comp_setTask_same reading]
  exact agrees

theorem locked_reader {mu : RWMutex Nat} (writing : task.writing = (s.tasks tid).writing)
    (agrees : mu.Agrees (StorageTask.writing ∘ s.tasks)
      (Function.update (StorageTask.reading ∘ s.tasks) tid task.reading)) :
    { s.setTask tid task with mu : Goroutines }.Locked := by
  change mu.Agrees (StorageTask.writing ∘ (s.setTask tid task).tasks)
    (StorageTask.reading ∘ (s.setTask tid task).tasks)
  rw [comp_setTask_same writing, comp_setTask]
  exact agrees

theorem Locked.step (locked : s.Locked) (step : Step s label s') : s'.Locked := by
  cases step with
  | @call tid _ idle call => cases call <;> exact locked.keep (by rw [idle]; rfl) (by rw [idle]; rfl) s.str s.wg
  | announce task done => exact locked_writer (by rw [task]; rfl) (locked.announce done)
  | acquire task done => exact locked_writer (by rw [task]; rfl) (locked.acquire done)
  | work work _ => exact locked.keep work.holds.2.1 work.holds.2.2 _ s.wg
  | @start tid child task str work _ _ idle =>
    have worked := locked.keep work.holds.2.1 work.holds.2.2 str (s.wg + 1)
    have idle : (s.setTask tid task).tasks child = .idle := (setTask_of_ne (child_ne work idle)).trans idle
    refine worked.keep ?_ ?_ str (s.wg + 1)
    · exact (congrArg StorageTask.writing idle).symm
    · exact (congrArg StorageTask.reading idle).symm
  | merge task | closedBefore task | cancel task | wait task | free task | tick task | cancelled task | reset task
  | finish task | visit task | leave task => exact locked.keep (by rw [task]; rfl) (by rw [task]; rfl) _ _
  | @unlock tid merged mu task done =>
    have same : (StorageTask.afterUnlock merged).writing = none ∧ (StorageTask.afterUnlock merged).reading = 0 := by
      rcases merged with _ | _ | _ <;> exact ⟨rfl, rfl⟩
    refine locked_writer (by rw [task, same.2]; rfl) ?_
    rw [same.1]
    exact locked.unlock done
  | @rlock tid op nested mu task done =>
    refine locked_reader (by rw [task]; rfl) ?_
    have agrees := locked.rlock done
    rw [Function.comp_apply, task] at agrees
    exact agrees
  | @runlock tid nested mu task done =>
    have same : (StorageTask.afterRUnlock nested).writing = none ∧
        (StorageTask.afterRUnlock nested).reading = nested.toNat := by
      cases nested <;> exact ⟨rfl, rfl⟩
    refine locked_reader (by rw [task, same.1]; rfl) ?_
    have agrees := locked.runlock done
    rw [Function.comp_apply, task] at agrees
    rw [same.2]
    exact agrees

theorem locked_start (started : system.init s) : s.Locked := by
  obtain ⟨_, free, _, idle⟩ := started
  have tasks : s.tasks = fun _ => .idle := funext idle
  unfold Locked
  rw [free, tasks]
  exact RWMutex.free_agrees

/-- While a goroutine has the lock for writing, no other one is in a section. -/
theorem Locked.no_section (locked : s.Locked) (mine : (s.tasks tid).writing = some true) {task : StorageTask}
    {str : Storage} (work : s.str.Section (s.tasks other) task str) : other = tid := by
  rcases work.holds.1 with writes | reads
  · exact locked.only_writer mine writes
  · exact absurd (locked.no_reader mine other) (Nat.ne_of_gt reads)

section Uncontended

variable {allow : Goroutines → GoroutineStep → Prop} {labels : List GoroutineStep} {op : WriteOp} {str : Storage}

/-- The next step of the goroutine that has just taken one. -/
theorem setTask_setTask (s : Goroutines) (tid : Nat) (task task' : StorageTask) (mu mu' : RWMutex Nat) (str : Storage)
    (wg : Nat) :
    { ({ s.setTask tid task with mu } : Goroutines).setTask tid task' with mu := mu', str, wg : Goroutines } =
      { s.setTask tid task' with mu := mu', str, wg } := by
  unfold setTask
  rw [Function.update_idem]

/-- A storage that nobody uses. -/
def unused (str : Storage) : Goroutines := ⟨str, .free, 0, fun _ => .idle⟩

theorem unused_run {mmapOk : Bool} {size : Int} (created : Storage.new mmapOk size = .ok str) :
    system.Run allow [] (unused str) :=
  .start ⟨⟨mmapOk, size, created⟩, rfl, rfl, fun _ => rfl⟩

/-- A writer gets a lock that nobody has. -/
theorem lock_run (run : system.Run allow labels s) (task : s.tasks tid = .locking op) (free : s.mu = .free)
    (announces : allow s (.announce tid))
    (acquires : allow { s.setTask tid (.acquiring op) with mu := .announcedBy tid } (.acquire tid)) :
    system.Run allow (labels ++ [.announce tid] ++ [.acquire tid])
      { s.setTask tid (.inside op) with mu := .heldBy tid } := by
  have announce : Step s (.announce tid) { s.setTask tid (.acquiring op) with mu := .announcedBy tid } :=
    .announce task (by rw [free]; exact RWMutex.announce_free)
  have acquire :=
    Step.acquire (s := { s.setTask tid (.acquiring op) with mu := .announcedBy tid }) (s.setTask_self tid _)
    RWMutex.acquire_announcedBy
  rw [setTask_setTask] at acquire
  exact (run.andThenAllowed _ announces announce).andThenAllowed _ acquires acquire

theorem unlock_run {merged : Option Bool} (run : system.Run allow labels s) (task : s.tasks tid = .unlocking merged)
    (held : s.mu = .heldBy tid) (unlocks : allow s (.unlock tid)) :
    system.Run allow (labels ++ [.unlock tid]) { s.setTask tid (StorageTask.afterUnlock merged) with mu := .free } :=
  run.andThenAllowed _ unlocks (.unlock task (by rw [held]; exact RWMutex.unlock_heldBy))

/-- The steps of a call that writes are allowed while the other goroutines are where they are. -/
def Lets (allow : Goroutines → GoroutineStep → Prop) (s : Goroutines) (tid : Nat) (op : WriteOp) : Prop :=
  ∀ u label task, u.tasks = Function.update s.tasks tid task →
    task ∈ [StorageTask.idle, .locking op, .acquiring op, .inside op, .unlocking none] → allow u label

theorem lets_any (s : Goroutines) (tid : Nat) (op : WriteOp) : Lets (fun _ _ => True) s tid op :=
  fun _ _ _ _ _ => trivial

/-- A writer with the lock it has called for, if nobody has it. -/
theorem enter_run (run : system.Run allow labels s) (lets : Lets allow s tid op) (idle : s.tasks tid = .idle)
    (free : s.mu = .free) (calls : op ≠ .merge) :
    ∃ labels, system.Run allow labels { s.setTask tid (.inside op) with mu := .heldBy tid } := by
  have called := run.andThenAllowed (.call tid (.locking op))
    (lets s _ .idle (by rw [← idle, Function.update_eq_self]) (by simp)) (.call idle (.write calls))
  have entered := lock_run called (s.setTask_self tid _) free (lets _ _ (.locking op) rfl (by simp))
    (lets _ _ (.acquiring op) (by simp [setTask]) (by simp))
  have same := s.setTask_setTask tid (.locking op) (.inside op) s.mu (.heldBy tid) s.str s.wg
  exact ⟨_, same ▸ entered⟩

/-- A call that writes can be made whenever nobody has the lock, and leaves nothing but its storage. -/
theorem write_run (run : system.Run allow labels s) (lets : Lets allow s tid op) (idle : s.tasks tid = .idle)
    (free : s.mu = .free) (calls : op ≠ .merge) (work : s.str.Section (.inside op) (.unlocking none) str)
    (same : str.merging = s.str.merging) : ∃ labels, system.Run allow labels { s with str } := by
  obtain ⟨before, entered⟩ := enter_run run lets idle free calls
  have here : s.str.Section ((s.setTask tid (.inside op)).tasks tid) (.unlocking none) str := by
    rw [setTask_self]
    exact work
  have worked := entered.andThenAllowed (.work tid str) (lets _ _ (.inside op) rfl (by simp)) (.work here same)
  have left := unlock_run worked (setTask_self ..) rfl (lets _ _ (.unlocking none) (by simp [setTask]) (by simp))
  refine ⟨before ++ [.work tid str] ++ [.unlock tid], ?_⟩
  convert left using 1
  simp [setTask, StorageTask.afterUnlock, ← idle, ← free]

/-- The same for a call that starts the merge goroutine. -/
theorem start_run {child : Nat} (run : system.Run allow labels s) (lets : Lets allow s tid op)
    (idle : s.tasks tid = .idle) (free : s.mu = .free) (calls : op ≠ .merge)
    (work : s.str.Section (.inside op) (.unlocking none) str) (off : s.str.merging = false) (on : str.merging = true)
    (idleChild : s.tasks child = .idle) (differs : child ≠ tid) (unlocks : ∀ u, allow u (.unlock tid)) :
    ∃ labels, system.Run allow labels { s.setTask child (.locking .merge) with str, wg := s.wg + 1 } := by
  obtain ⟨before, entered⟩ := enter_run run lets idle free calls
  have here : s.str.Section ((s.setTask tid (.inside op)).tasks tid) (.unlocking none) str := by
    rw [setTask_self]
    exact work
  have worked := entered.andThenAllowed (.start tid child str) (lets _ _ (.inside op) rfl (by simp))
    (.start here off on ((setTask_of_ne differs).trans idleChild))
  have left := unlock_run worked ((setTask_of_ne differs.symm).trans (setTask_self ..)) rfl (unlocks _)
  refine ⟨before ++ [.start tid child str] ++ [.unlock tid], ?_⟩
  convert left using 1
  simp only [setTask, StorageTask.afterUnlock, Function.update_idem, Function.update_comm differs, free, ← idle,
    Function.update_eq_self]

end Uncontended

end Goroutines

end Olric
