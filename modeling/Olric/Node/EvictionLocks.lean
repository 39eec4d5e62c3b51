import Olric.Node.Handlers
import Olric.Storage.Goroutines
import Olric.Storage.Growth

namespace Olric

/-- The goroutine is in the loop of `Range`, so that its callback can call `Delete` again. -/
def StorageTask.InRange : StorageTask → Prop
  | .rlocking _ nested | .runlocking nested => nested = true
  | .rinside op nested => op = .range ∨ nested = true
  | _ => False

theorem Storage.Section.inRange {s s' : Storage} {task task' : StorageTask} (work : s.Section task task' s')
    (inRange : task'.InRange) : task.InRange := by
  cases work with
  | put | putRaw | observe => cases inRange
  | get | delete => exact .inr inRange

namespace Goroutines

variable {s s' : Goroutines} {tid scan writer : Nat} {label : GoroutineStep} {task : StorageTask}

/-- `scanDMapForEviction` does not get on: the callback of `Range` waits for the read lock behind a writer,
and the writer waits for `Range` to give its own read lock back. -/
structure RangeStuck (s : Goroutines) (scan writer : Nat) : Prop where
  callback : ∃ hkey, s.tasks scan = .rlocking (.delete hkey) true
  inside : scan ∈ s.mu.readers
  waits : ∃ op, s.tasks writer = .acquiring op
  announced : s.mu.writer = some writer

/-- A step of another goroutine that keeps the two in the lock. -/
theorem RangeStuck.next (stuck : s.RangeStuck scan writer) {mu : RWMutex Nat} {str : Storage} {wg : Nat}
    (notScan : tid ≠ scan) (notWriter : tid ≠ writer) (inside : scan ∈ mu.readers)
    (announced : mu.writer = some writer) :
    { s.setTask tid task with mu, str, wg : Goroutines }.RangeStuck scan writer where
  callback := stuck.callback.imp fun _ there => (setTask_of_ne notScan.symm).trans there
  inside := inside
  waits := stuck.waits.imp fun _ there => (setTask_of_ne notWriter.symm).trans there
  announced := announced

/-- Neither of the two can go on, and nobody else can help them. -/
theorem RangeStuck.step (stuck : s.RangeStuck scan writer) (step : Step s label s') : s'.RangeStuck scan writer := by
  obtain ⟨hkey, callback⟩ := stuck.callback
  obtain ⟨op, waits⟩ := stuck.waits
  have others {tid : Nat} {task : StorageTask} (there : s.tasks tid = task)
    (notScan : task ≠ .rlocking (.delete hkey) true)
      (notWriter : task ≠ .acquiring op) : tid ≠ scan ∧ tid ≠ writer := by
    constructor
    · rintro rfl
      exact notScan (there.symm.trans callback)
    · rintro rfl
      exact notWriter (there.symm.trans waits)
  have works {tid : Nat} {task : StorageTask} {str : Storage} (work : s.str.Section (s.tasks tid) task str) :
      tid ≠ scan ∧ tid ≠ writer := by
    constructor
    · rintro rfl
      rw [callback] at work
      cases work
    · rintro rfl
      rw [waits] at work
      cases work
  cases step with
  | call task | merge task | closedBefore task | cancel task | wait task | free task | tick task | cancelled task
  | reset task | finish task | visit task | leave task =>
    exact stuck.next (others task nofun nofun).1 (others task nofun nofun).2 stuck.inside stuck.announced
  | work work => exact stuck.next (works work).1 (works work).2 stuck.inside stuck.announced
  | @start tid child task str work _ _ idle =>
    have worked : { s.setTask tid task with str : Goroutines }.RangeStuck scan writer :=
      stuck.next (works work).1 (works work).2 stuck.inside stuck.announced
    exact worked.next (others idle nofun nofun).1 (others idle nofun nofun).2 stuck.inside stuck.announced
  | announce _ done => exact absurd ((RWMutex.announce_eq done).1.symm.trans stuck.announced) nofun
  | rlock _ done => exact absurd ((RWMutex.rlock_eq done).1.symm.trans stuck.announced) nofun
  | acquire _ done =>
    have inside := stuck.inside
    rw [(RWMutex.acquire_eq done).2.1] at inside
    cases inside
  | unlock task done =>
    cases stuck.announced.symm.trans (RWMutex.unlock_eq done).1
    exact absurd rfl (others task nofun nofun).2
  | runlock task done =>
    obtain ⟨_, rfl⟩ := RWMutex.runlock_eq done
    have others := others task nofun nofun
    exact stuck.next others.1 others.2 ((List.mem_erase_of_ne others.1.symm).2 stuck.inside) stuck.announced

/-- Nobody asks for the lock as a writer while a goroutine is in the loop of `Range`. -/
def WritersWait (s : Goroutines) : GoroutineStep → Prop
  | .announce _ => ∀ tid, ¬ (s.tasks tid).InRange
  | _ => True

/-- There is no writer while a goroutine is in the loop of `Range`. -/
def RangeFree (s : Goroutines) : Prop := ∀ tid, (s.tasks tid).InRange → s.mu.writer = none

theorem rangeFree_next {mu : RWMutex Nat} {str : Storage} {wg : Nat} (mine : task.InRange → mu.writer = none)
    (others : ∀ other, (s.tasks other).InRange → mu.writer = none) :
    { s.setTask tid task with mu, str, wg : Goroutines }.RangeFree := by
  intro other inRange
  change ((s.setTask tid task).tasks other).InRange at inRange
  rcases s.setTask_tasks tid task other with ⟨_, same⟩ | ⟨_, same⟩ <;> rw [same] at inRange
  · exact mine inRange
  · exact others other inRange

theorem RangeFree.step (free : s.RangeFree) (allowed : s.WritersWait label) (step : Step s label s') :
    s'.RangeFree := by
  cases step with
  | call _ call => cases call <;> exact rangeFree_next nofun free
  | announce => exact rangeFree_next nofun fun other inRange => absurd inRange (allowed other)
  | acquire _ done =>
    obtain ⟨mine, _, rfl⟩ := RWMutex.acquire_eq done
    exact rangeFree_next nofun fun other inRange => absurd (mine.symm.trans (free other inRange)) nofun
  | work work => exact rangeFree_next (fun inRange => free _ (work.inRange inRange)) free
  | @start tid _ task str work =>
    have worked : { s.setTask tid task with str }.RangeFree :=
      rangeFree_next (fun inRange => free _ (work.inRange inRange)) free
    exact rangeFree_next nofun worked
  | merge | closedBefore | cancel | wait | free | tick | cancelled | reset | finish | leave =>
    exact rangeFree_next nofun free
  | unlock _ done =>
    obtain ⟨_, _, rfl⟩ := RWMutex.unlock_eq done
    exact rangeFree_next (fun _ => rfl) fun _ _ => rfl
  | rlock _ done =>
    obtain ⟨none, rfl⟩ := RWMutex.rlock_eq done
    exact rangeFree_next (fun _ => none) fun _ _ => none
  | visit task => exact rangeFree_next (fun _ => free _ (by rw [task]; exact .inl rfl)) free
  | @runlock tid nested _ task done =>
    obtain ⟨_, rfl⟩ := RWMutex.runlock_eq done
    refine rangeFree_next (fun inRange => free tid ?_) free
    rw [task]
    cases nested with
    | false => cases inRange
    | true => rfl

/-- An expired entry in a storage, and `Range` about to delete it. -/
theorem visit_run : ∃ labels s v now, system.Run WritersWait labels s ∧ s.str.get 7 = .ok (.ok v) ∧
    isKeyExpired now v.ttl = true ∧ s.mu = ⟨none, false, [0]⟩ ∧ s.tasks 0 = .rlocking (.delete 7) true ∧
      s.tasks 1 = .idle := by
  obtain ⟨t, table, offset, _, allocated⟩ := newTable_eq 0
  have positive : minimumSize = 1048576 := rfl
  obtain ⟨v, small, short, length, expired⟩ : ∃ v : VData, v.key.length < maxKeyLen ∧ v.value.length < 2 ^ 32 ∧
      v.encode.length = 15 ∧ isKeyExpired 9000000 v.ttl = true :=
    ⟨⟨[107], 5, [1]⟩, by decide, by decide, VData.encode_length _, by decide⟩
  obtain ⟨stored, fits, _⟩ := Table.put_fits 7 small (show v.encode.length + t.offset < t.allocated by omega)
  have contents : stored.get 7 = some v := by
    rw [(Table.put_spec (Table.newTable_spec table).1 short fits).2.2, Function.update_self]
  have created : Storage.new true 0 = .ok ⟨[t], false, false⟩ := by
    rw [Storage.new, table]
    rfl
  have put : Storage.put ⟨[t], false, false⟩ [] 7 v = .ok (⟨[stored], false, false⟩, none) :=
    Storage.put_of_fits rfl fits
  have lets : Lets WritersWait (unused ⟨[t], false, false⟩) 1 (.put 7 v) := by
    intro u label task tasks mem
    cases label with
    | announce =>
      intro tid inRange
      rw [tasks] at inRange
      by_cases same : tid = 1
      · subst same
        rw [Function.update_self] at inRange
        simp only [List.mem_cons, List.not_mem_nil, or_false] at mem
        rcases mem with rfl | rfl | rfl | rfl | rfl <;> cases inRange
      · rw [Function.update_of_ne same] at inRange
        cases inRange
    | _ => trivial
  obtain ⟨labels, run⟩ := write_run (unused_run created) lets rfl rfl (by rintro ⟨⟩) (.put put) rfl
  have run := run.andThenAllowed (.call 0 (.rlocking .range false)) trivial (.call rfl .read)
  have run := run.andThenAllowed (.rlock 0) trivial (.rlock rfl rfl)
  have run := run.andThenAllowed (.visit 0 7) trivial
    (.visit rfl ⟨stored, List.mem_singleton_self _, Table.isSome_get.1 (by rw [contents]; rfl)⟩)
  refine ⟨_, _, v, 9000000, run, ?_, expired, rfl, rfl, rfl⟩
  simp [setTask, Storage.get, contents]

/-- The eviction and the writers do not block each other if writers ask for the lock of the storage only
when nobody is in `Range`. -/
theorem range_never_stuck {labels : List GoroutineStep} (run : system.Run WritersWait labels s) (scan writer : Nat) :
    ¬ s.RangeStuck scan writer := by
  have free : s.RangeFree := by
    refine run.invariant RangeFree ?_ fun s label s' free allowed step => free.step allowed step
    rintro s ⟨_, _, _, idle⟩ tid inRange
    rw [idle tid] at inRange
    cases inRange
  rintro ⟨⟨hkey, callback⟩, _, _, announced⟩
  have none := free scan (by rw [callback]; rfl)
  cases none.symm.trans announced

/-- `Range` about to delete an expired entry. -/
theorem visit_not_stuck : ∃ labels s, system.Run WritersWait labels s ∧ s.tasks 0 = .rlocking (.delete 7) true ∧
    ∀ writer, ¬ s.RangeStuck 0 writer := by
  obtain ⟨labels, s, _, _, run, _, _, _, callback, _⟩ := visit_run
  exact ⟨labels, s, run, callback, range_never_stuck run 0⟩

/-- Between the read lock of `Range` and the one of `Delete` another goroutine calls `Len`. Neither of them
ever gets on. -/
theorem eviction_and_len_stuck : ∃ labels s v now, system.AnyRun labels s ∧ s.str.get 7 = .ok (.ok v) ∧
    isKeyExpired now v.ttl = true ∧ s.tasks 1 = .acquiring .observe ∧ s.RangeStuck 0 1 ∧
    ∀ label s', Step s label s' → s'.RangeStuck 0 1 := by
  obtain ⟨labels, ⟨str, _, wg, tasks⟩, v, now, run, found, expired, ⟨⟩, callback, idle⟩ := visit_run
  have run := (run.mono fun _ _ _ => trivial).andThen (.call 1 (.locking .observe)) (.call idle (.write nofun))
  have run := run.andThen (.announce 1) (.announce rfl rfl)
  have stuck : RangeStuck ⟨str, ⟨some 1, false, [0]⟩, wg,
      Function.update (Function.update tasks 1 (.locking .observe)) 1 (.acquiring .observe)⟩ 0 1 :=
    ⟨⟨7, callback⟩, List.mem_singleton_self 0, ⟨.observe, rfl⟩, rfl⟩
  exact ⟨_, _, v, now, run, found, expired, rfl, stuck, fun _ _ => stuck.step⟩

end Goroutines

end Olric
