import Olric.Storage.Goroutines
import Olric.Storage.Growth

namespace Olric

namespace StorageTask

/-- The merge goroutine, before its last call of `chunkedMergeTables`. -/
def Merges : StorageTask → Prop
  | .locking op | .acquiring op | .inside op => op = .merge
  | .unlocking merged => merged = some false
  | .selecting => True
  | _ => False

/-- The merge goroutine after its last call, with the merging flag still set. -/
def Resets : StorageTask → Prop
  | .unlocking merged => merged = some true
  | .resetting => True
  | _ => False

/-- The merge goroutine, up to the reset of the flag. -/
def Minds : StorageTask → Prop
  | .locking op | .acquiring op | .inside op => op = .merge
  | .unlocking merged => merged.isSome
  | .selecting | .resetting => True
  | _ => False

theorem minds_iff {task : StorageTask} : task.Minds ↔ task.Merges ∨ task.Resets := by
  cases task with
  | unlocking merged => rcases merged with _ | _ | _ <;> simp [Minds, Merges, Resets]
  | _ => simp [Minds, Merges, Resets]

theorem Merges.minds {task : StorageTask} (merges : task.Merges) : task.Minds := minds_iff.2 (.inl merges)

theorem Resets.minds {task : StorageTask} (resets : task.Resets) : task.Minds := minds_iff.2 (.inr resets)

theorem Call.not_minds {task : StorageTask} (call : task.Call) : ¬ task.Minds := by
  cases call with
  | write other => exact other
  | read => nofun

end StorageTask

namespace Storage

variable {s s' : Storage} {task task' : StorageTask}

theorem Section.not_minds (work : s.Section task task' s') : ¬ task.Minds ∧ ¬ task'.Minds := by
  cases work <;> exact ⟨nofun, nofun⟩

/-- The tables and the flag stay as they are, or there are more tables and the flag is set. -/
def Grows (s s' : Storage) : Prop :=
  s'.tables.length = s.tables.length ∧ s'.merging = s.merging ∨ s.tables.length < s'.tables.length ∧ s'.merging = true

theorem retry_grows {write : Table → Except StorageError Table} {mmaps : List Bool} {err : Option StorageError}
    (run : retry write mmaps s = .ok (s', err)) : s.Grows s' := by
  refine retry_rule (P := s.Grows) (Q := s.Grows) run (.inl ⟨rfl, rfl⟩) ?_ ?_ fun grown _ _ => grown
  · intro u t nt mmapOk grown _ _ _
    refine .inr ⟨?_, rfl⟩
    rcases grown with ⟨length, _⟩ | ⟨length, _⟩ <;> simp <;> omega
  · intro u t stored grown last _ _
    have length : (u.tables.dropLast ++ [stored]).length = u.tables.length := by
      conv_rhs => rw [tables_eq_of_getLast? last]
      rw [List.length_append, List.length_append, List.length_singleton, List.length_singleton]
    unfold Grows
    rw [length]
    exact grown

theorem Section.grows (work : s.Section task task' s') : s.Grows s' := by
  cases work with
  | put done | putRaw done => exact retry_grows done
  | observe | get => exact .inl ⟨rfl, rfl⟩
  | delete done =>
    rcases delete_cases done with rfl | ⟨_, nt, _, rfl⟩
    · refine .inl ⟨?_, rfl⟩
      simp [deleteScan_length]
    · refine .inr ⟨?_, rfl⟩
      simp [deleteScan_length]

/-- A merge of two tables with one entry to move, which fits. -/
theorem chunkedMergeTables_single {t u u' : Table} {hkey : UInt64} {raw : Bytes} {merging closed : Bool}
    (found : t.getRaw hkey = some raw) (fits : u.putRaw hkey raw = .ok u')
    (emptied : (t.delete hkey).2.get = fun _ => none) (mmapOk : Bool) :
    Storage.chunkedMergeTables ⟨[t, u], merging, closed⟩ (fun _ => [hkey]) mmapOk =
      .ok (true, ⟨[u'], merging, closed⟩) := by
  have dropped := filter_nonempty_eq_nil (List.forall_mem_singleton.2 emptied)
  have moved : mergeTable [hkey] t u 0 = (((t.delete hkey).2, u', 1), none) := by simp [mergeTable, found, fits]
  have merged : mergeOlder [(t, [hkey])] u 0 = (([(t.delete hkey).2], u'), none) := by simp [mergeOlder, moved]
  unfold chunkedMergeTables
  simpa [merged] using dropped

end Storage

namespace Goroutines

variable {s s' : Goroutines} {tid other : Nat} {label : GoroutineStep} {task : StorageTask}

/-- A new table is added only when no merge goroutine is between its last merge and the reset of the flag. -/
def SwitchesAlone (s : Goroutines) : GoroutineStep → Prop
  | .work _ str | .start _ _ str => s.str.tables.length < str.tables.length → ∀ tid, ¬ (s.tasks tid).Resets
  | _ => True

/-- The flag tells whether there is a merge goroutine. While the storage is open, the flag is set if there
are several tables, and there is one table when the merge goroutine is about to reset the flag. -/
structure Minded (s : Goroutines) : Prop where
  alone : ∀ {tid other}, (s.tasks tid).Minds → (s.tasks other).Minds → other = tid
  flag : s.str.merging = true ↔ ∃ tid, (s.tasks tid).Minds
  fragmented : s.str.closed = false → 1 < s.str.tables.length → s.str.merging = true
  merged : s.str.closed = false → ∀ {tid}, (s.tasks tid).Resets → s.str.tables.length ≤ 1

/-- A step of a merge goroutine that stays one, or of another goroutine. -/
theorem Minded.keep (minded : s.Minded) {mu : RWMutex Nat} {str : Storage} {wg : Nat}
    (minds : task.Minds ↔ (s.tasks tid).Minds) (flag : str.merging = s.str.merging)
    (fragmented : str.closed = false → 1 < str.tables.length → s.str.merging = true)
    (mine : str.closed = false → task.Resets → str.tables.length ≤ 1)
    (others : str.closed = false → ∀ other, other ≠ tid → (s.tasks other).Resets → str.tables.length ≤ 1) :
    { s.setTask tid task with mu, str, wg : Goroutines }.Minded := by
  have same : StorageTask.Minds ∘ (s.setTask tid task).tasks = StorageTask.Minds ∘ s.tasks :=
    comp_setTask_same (propext minds)
  refine ⟨fun {first second} here there => ?_, ?_, fun isOpen more => flag.trans (fragmented isOpen more),
    fun isOpen other resets => ?_⟩
  · exact minded.alone ((congrFun same first).mp here) ((congrFun same second).mp there)
  · rw [flag, minded.flag]
    exact exists_congr fun tid => (iff_of_eq (congrFun same tid)).symm
  · change ((s.setTask tid task).tasks other).Resets at resets
    rcases s.setTask_tasks tid task other with ⟨_, here⟩ | ⟨differs, here⟩ <;> rw [here] at resets
    · exact mine isOpen resets
    · exact others isOpen other differs resets

/-- The same, if the storage stays as it is. -/
theorem Minded.setTask (minded : s.Minded) {mu : RWMutex Nat} {wg : Nat} (minds : task.Minds ↔ (s.tasks tid).Minds)
    (resets : s.str.closed = false → task.Resets → (s.tasks tid).Resets) :
    { s.setTask tid task with mu, wg : Goroutines }.Minded :=
  minded.keep minds rfl minded.fragmented (fun isOpen mine => minded.merged isOpen (resets isOpen mine))
    fun isOpen _ _ => minded.merged isOpen

theorem Minded.work (minded : s.Minded) {str : Storage} (work : s.str.Section (s.tasks tid) task str)
    (allowed : s.str.tables.length < str.tables.length → ∀ tid, ¬ (s.tasks tid).Resets)
    (same : str.merging = s.str.merging) : { s.setTask tid task with str }.Minded := by
  have before (isOpen : str.closed = false) : s.str.closed = false := work.closed.symm.trans isOpen
  refine minded.keep (iff_of_false work.not_minds.2 work.not_minds.1) same (fun isOpen several => ?_)
    (fun _ resets => absurd resets.minds work.not_minds.2) fun isOpen other _ resets => ?_
  · rcases work.grows with ⟨length, _⟩ | ⟨_, on⟩
    · exact minded.fragmented (before isOpen) (length ▸ several)
    · exact same.symm.trans on
  · rcases work.grows with ⟨length, _⟩ | ⟨more, _⟩
    · exact length ▸ minded.merged (before isOpen) resets
    · exact absurd resets (allowed more other)

/-- A section that starts a merge goroutine starts the only one. -/
theorem Minded.start (minded : s.Minded) {str : Storage} {child wg : Nat}
    (work : s.str.Section (s.tasks tid) task str) (off : s.str.merging = false) (on : str.merging = true) :
    { (s.setTask tid task).setTask child (.locking .merge) with str, wg : Goroutines }.Minded := by
  have none (other : Nat) : ¬ (s.tasks other).Minds := fun minds =>
    absurd (off.symm.trans (minded.flag.2 ⟨other, minds⟩)) nofun
  have only {other : Nat} (minds : (((s.setTask tid task).setTask child (.locking .merge)).tasks other).Minds) :
      other = child := by
    by_contra differs
    rw [setTask_of_ne differs] at minds
    rcases s.setTask_tasks tid task other with ⟨_, same⟩ | ⟨_, same⟩ <;> rw [same] at minds
    · exact work.not_minds.2 minds
    · exact none other minds
  refine ⟨fun here there => (only there).trans (only here).symm, iff_of_true on ⟨child, ?_⟩, fun _ _ => on,
    fun _ other resets => ?_⟩
  · exact (setTask_self ..) ▸ (rfl : (StorageTask.locking .merge).Minds)
  · change (((s.setTask tid task).setTask child (.locking .merge)).tasks other).Resets at resets
    cases only resets.minds
    rw [setTask_self] at resets
    cases resets

/-- The merge goroutine resets the flag when there is nothing left to merge, or after `Close`. -/
theorem Minded.reset (minded : s.Minded) (resetting : s.tasks tid = .resetting) :
    { s.setTask tid .finishing with str := { s.str with merging := false } : Goroutines }.Minded := by
  have mine : (s.tasks tid).Resets := by
    rw [resetting]
    trivial
  have none (other : Nat) : ¬ ((s.setTask tid .finishing).tasks other).Minds := by
    intro minds
    rcases s.setTask_tasks tid .finishing other with ⟨_, same⟩ | ⟨differs, same⟩ <;> rw [same] at minds
    · cases minds
    · exact differs (minded.alone mine.minds minds)
  refine ⟨fun here => absurd here (none _), iff_of_false nofun fun ⟨tid, minds⟩ => none tid minds,
    fun isOpen several => ?_, fun _ tid resets => absurd resets.minds (none tid)⟩
  exact absurd (minded.merged isOpen mine) (Nat.not_le.2 several)

theorem Minded.merge (minded : s.Minded) {str : Storage} {order : Nat → List UInt64} {mmapOk merged : Bool}
    (inside : s.tasks tid = .inside .merge) (orders : s.str.MergeOrder order)
    (done : s.str.chunkedMergeTables order mmapOk = .ok (merged, str)) :
    { s.setTask tid (.unlocking (some merged)) with str }.Minded := by
  have mine : (s.tasks tid).Minds := by
    rw [inside]
    rfl
  refine minded.keep (iff_of_true rfl mine) (Storage.chunkedMergeTables_merging done)
    (fun _ _ => minded.flag.2 ⟨tid, mine⟩)
    (fun _ resets => ?_) fun _ other differs resets => ?_
  · cases resets
    exact (Storage.chunkedMergeTables_done orders done).le
  · exact absurd (minded.alone mine resets.minds) differs

theorem Minded.step (minded : s.Minded) (allowed : s.SwitchesAlone label) (step : Step s label s') : s'.Minded := by
  cases step with
  | call idle call =>
    exact minded.setTask (iff_of_false call.not_minds (by rw [idle]; nofun)) fun _ resets =>
      absurd resets.minds call.not_minds
  | announce task | acquire task => exact minded.setTask (by rw [task]; exact Iff.rfl) nofun
  | tick task => exact minded.setTask (by rw [task]; exact iff_of_true rfl trivial) nofun
  | work work same => exact minded.work work allowed same
  | start work off on => exact minded.start work off on
  | merge task orders done => exact minded.merge task orders done
  | closedBefore task | wait task | finish task | rlock task | visit task | leave task =>
    exact minded.setTask (by rw [task]; exact iff_of_false nofun nofun) nofun
  | cancel task => exact minded.keep (by rw [task]; exact iff_of_false nofun nofun) rfl nofun nofun nofun
  | @free tid munmapOk task =>
    have idle : (StorageTask.unlocking none).Minds ↔ (s.tasks tid).Minds := by
      rw [task]
      exact iff_of_false nofun nofun
    cases munmapOk with
    | false => exact minded.setTask idle nofun
    | true =>
      exact minded.keep idle rfl (fun _ several => absurd several (Nat.not_lt_zero 1)) nofun fun _ _ _ _ =>
      Nat.zero_le 1
  | @unlock tid merged mu task =>
    rcases merged with _ | _ | _
    · exact minded.setTask (by rw [task]; exact iff_of_false nofun nofun) nofun
    · exact minded.setTask (by rw [task]; exact iff_of_true trivial rfl) nofun
    · exact minded.setTask (by rw [task]; exact iff_of_true trivial rfl) fun _ _ => by rw [task]; rfl
  | cancelled task closed =>
    exact minded.setTask (by rw [task]; exact Iff.rfl) fun isOpen => absurd (closed.symm.trans isOpen) nofun
  | reset task => exact minded.reset task
  | @runlock tid nested mu task =>
    cases nested <;> exact minded.setTask (by rw [task]; exact iff_of_false nofun nofun) nofun

/-- A merge goroutine merges before it does anything else, unless `Close` comes. -/
theorem merges_stays (isOpen : s.str.closed = false) (merges : (s.tasks tid).Merges) (step : Step s label s') :
    (s'.tasks tid).Merges ∨ label = .merge tid := by
  have keep {actor : Nat} {task : StorageTask} (mine : actor = tid → task.Merges) :
      ((s.setTask actor task).tasks tid).Merges := by
    rcases s.setTask_tasks actor task tid with ⟨same, here⟩ | ⟨_, here⟩ <;> rw [here]
    · exact mine same.symm
    · exact merges
  have here {actor : Nat} {before : StorageTask} (task : s.tasks actor = before) (same : actor = tid) :
      before.Merges := by
    subst same
    exact task ▸ merges
  cases step with
  | call task | closedBefore task | cancel task | wait task | free task | reset task | finish task | rlock task
  | visit task | leave task | runlock task => exact .inl (keep fun same => absurd (here task same) nofun)
  | announce task | acquire task =>
    refine .inl (keep fun same => ?_)
    have merges := here task same
    exact merges
  | tick => exact .inl (keep fun _ => rfl)
  | cancelled _ closed => exact absurd (closed.symm.trans isOpen) nofun
  | work work => exact .inl (keep fun same => absurd (same ▸ merges).minds work.not_minds.1)
  | @start actor child after str work _ _ idle =>
    have differs : tid ≠ child := fun same => absurd (here idle same.symm) nofun
    refine .inl ?_
    change (((s.setTask actor after).setTask child (.locking .merge)).tasks tid).Merges
    rw [setTask_of_ne differs]
    exact keep fun same => absurd (same ▸ merges).minds work.not_minds.1
  | @merge actor =>
    by_cases same : actor = tid
    · exact .inr (congrArg _ same)
    · exact .inl (keep fun now => absurd now same)
  | @unlock _ merged _ task =>
    refine .inl (keep fun same => ?_)
    cases here task same
    trivial

/-- A call from outside does not make a merge goroutine of the one that makes it. -/
theorem unused_not_minds {str : Storage} {op : WriteOp} (calls : op ≠ .merge)
    (tasks : s.tasks = Function.update (unused str).tasks tid task)
    (mem : task ∈ [StorageTask.idle, .locking op, .acquiring op, .inside op, .unlocking none]) (other : Nat) :
    ¬ (s.tasks other).Minds := by
  rw [tasks]
  by_cases same : other = tid
  · subst same
    rw [Function.update_self]
    simp only [List.mem_cons, List.not_mem_nil, or_false] at mem
    rcases mem with rfl | rfl | rfl | rfl | rfl
    · nofun
    · exact calls
    · exact calls
    · exact calls
    · nofun
  · rw [Function.update_of_ne same]
    nofun

theorem lets_unused (str : Storage) {op : WriteOp} (calls : op ≠ .merge) : Lets SwitchesAlone (unused str) 0 op := by
  intro u label task tasks mem
  cases label with
  | work | start => exact fun _ tid resets => unused_not_minds calls tasks mem tid resets.minds
  | _ => trivial

/-- A storage that nobody uses but the merge goroutine that has just been started. -/
def switched (t u : Table) : Goroutines :=
  ⟨⟨[t, u], true, false⟩, .free, 1, Function.update (fun _ => .idle) 1 (.locking .merge)⟩

/-- Two entries that do not fit into one table. -/
theorem switch_run : ∃ labels t u v, ∃ w : VData, system.Run SwitchesAlone labels (switched t u) ∧ t.Valid ∧
    t.get = Function.update (fun _ => none) 1 (some v) ∧ v.encode.length = 600014 ∧
    u.offset = 500014 ∧ u.inuse = 500014 ∧ u.allocated = 1200028 ∧ w.key.length < maxKeyLen ∧
      w.encode.length = 500014 := by
  have entry (size : Nat) : ∃ v : VData, v.key.length < maxKeyLen ∧ v.value.length = size ∧
      v.encode.length = size + 14 := by
    refine ⟨⟨[107], 0, List.replicate size 0⟩, (by decide : 1 < maxKeyLen), List.length_replicate, ?_⟩
    rw [VData.encode_length, List.length_replicate, List.length_singleton]
    omega
  obtain ⟨v, smallV, valueV, lengthV⟩ := entry 600000
  obtain ⟨w, smallW, _, lengthW⟩ := entry 500000
  have positive : minimumSize = 1048576 := rfl
  obtain ⟨t₀, made, offset₀, inuse₀, allocated₀⟩ := newTable_eq 0
  obtain ⟨valid₀, empty₀⟩ := Table.newTable_spec made
  obtain ⟨t, stored, offset, allocated⟩ :=
    Table.put_fits 1 smallV (show v.encode.length + t₀.offset < t₀.allocated by omega)
  have inuse := Table.put_inuse (by rw [empty₀]) stored
  obtain ⟨_, valid, contents⟩ := Table.put_spec valid₀ (show v.value.length < 2 ^ 32 by omega) stored
  rw [empty₀] at contents
  obtain ⟨u₀, madeU, offsetU₀, inuseU₀, allocatedU₀⟩ := newTable_eq (t.inuse * 2)
  obtain ⟨u, storedU, offsetU, allocatedU⟩ :=
    Table.put_fits 2 smallW (show w.encode.length + u₀.offset < u₀.allocated by omega)
  have inuseU := Table.put_inuse (by rw [(Table.newTable_spec madeU).2]) storedU
  have first : Storage.put ⟨[t₀], false, false⟩ [] 1 v = .ok (⟨[t], false, false⟩, none) :=
    Storage.put_of_fits rfl stored
  have full : t.put 2 w = .error .notEnoughSpace := Table.put_full 2 smallW (by omega)
  have second : Storage.put ⟨[t], false, false⟩ [true] 2 w = .ok (⟨[t, u], true, false⟩, none) :=
    (Storage.put_of_full rfl full madeU).trans (Storage.put_of_fits rfl storedU)
  have created : Storage.new true 0 = .ok ⟨[t₀], false, false⟩ := by
    rw [Storage.new, made]
    rfl
  have calls (hkey : UInt64) (value : VData) : WriteOp.put hkey value ≠ .merge := by rintro ⟨⟩
  obtain ⟨_, run⟩ := write_run (unused_run created) (lets_unused _ (calls 1 v)) rfl rfl (calls 1 v) (.put first) rfl
  obtain ⟨labels, run⟩ :=
    start_run run (lets_unused _ (calls 2 w)) rfl rfl (calls 2 w) (.put second) rfl rfl rfl Nat.one_ne_zero
    fun _ => trivial
  exact ⟨labels, t, u, v, w, run, valid, contents, lengthV, by omega, by omega, by omega, smallW, lengthW⟩

/-- An open storage with several tables has a merge goroutine that will call `chunkedMergeTables` again,
if no table is added while a merge goroutine is about to reset the flag. -/
theorem fragmented_has_merger {labels : List GoroutineStep} (run : system.Run SwitchesAlone labels s)
    (isOpen : s.str.closed = false) (several : 1 < s.str.tables.length) : ∃ tid, (s.tasks tid).Merges := by
  have minded : s.Minded := by
    refine run.invariant Minded (fun s started => ?_) fun s label s' minded allowed step => minded.step allowed step
    obtain ⟨⟨mmapOk, size, created⟩, _, _, idle⟩ := started
    obtain ⟨t, _, eq⟩ := Storage.new_eq created
    have none (tid : Nat) : ¬ (s.tasks tid).Minds := by
      rw [idle tid]
      nofun
    refine ⟨fun minds => absurd minds (none _), iff_of_false (by rw [eq]; nofun) fun ⟨tid, minds⟩ => none tid minds,
      fun _ more => ?_, fun _ tid resets => absurd resets.minds (none tid)⟩
    rw [eq] at more
    exact absurd more (lt_irrefl 1)
  obtain ⟨tid, minds⟩ := minded.flag.1 (minded.fragmented isOpen several)
  rcases StorageTask.minds_iff.1 minds with merges | resets
  · exact ⟨tid, merges⟩
  · exact absurd (minded.merged isOpen resets) (Nat.not_le.2 several)

/-- A storage with two tables, right after the second one has been added. -/
theorem switched_has_merger : ∃ labels s, system.Run SwitchesAlone labels s ∧ s.str.closed = false ∧
    s.str.tables.length = 2 ∧
    ∃ tid, (s.tasks tid).Merges := by
  obtain ⟨labels, t, u, _, _, run, _⟩ := switch_run
  exact ⟨labels, _, run, rfl, rfl, fragmented_has_merger run rfl Nat.one_lt_two⟩

/-- The merge goroutine has merged and left its last section. Before it resets the flag, a `Put` adds a
table and finds the flag set. In the end two tables are left, and nobody is there to merge them. -/
theorem fragmented_without_merger :
    ∃ labels s, system.AnyRun labels s ∧ s.str.closed = false ∧ s.str.tables.length = 2 ∧
    s.str.exportTable = .error .fragmented ∧ s.str.merging = false ∧ ∀ tid, s.tasks tid = .idle := by
  obtain ⟨_, t, u, v, w, run, valid, contents, lengthV, offset, inuse, allocated, small, lengthW⟩ := switch_run
  have raw : t.getRaw 1 = some (v.encode ++ [0]) := by
    rw [valid.getRaw_eq, contents, Function.update_self]
    rfl
  have emptied : (t.delete 1).2.get = fun _ => none := by
    rw [Table.delete_get, contents, Function.update_idem, Function.update_eq_self]
  have enumerates : t.Enumerates [1] := by
    refine ⟨List.nodup_singleton 1, fun hkey => ?_⟩
    rw [← Table.isSome_get, contents, List.mem_singleton]
    by_cases same : hkey = 1 <;> simp [same]
  have order : (Storage.mk [t, u] true false).MergeOrder fun _ => [1] := by
    rintro (_ | i) old there
    · cases there
      exact enumerates
    · cases there
  have length : (v.encode ++ [0]).length = 600015 := by
    rw [List.length_append, lengthV]
    rfl
  obtain ⟨u', moved, offset', inuse', allocated'⟩ : ∃ u', u.putRaw 1 (v.encode ++ [0]) = .ok u' ∧
    u'.offset = 1100029 ∧
      u'.inuse = 1100029 ∧ u'.allocated = 1200028 := by
    refine ⟨_, if_neg (by omega), ?_, ?_, allocated⟩
    · change u.offset + (v.encode ++ [0]).length = _
      omega
    · change u.inuse + ((v.encode ++ [0]).length : Int) = _
      omega
  obtain ⟨n₀, made, offsetN, _, allocatedN⟩ := newTable_eq (u'.inuse * 2)
  obtain ⟨n, stored, _⟩ := Table.put_fits 3 small (show w.encode.length + n₀.offset < n₀.allocated by omega)
  have third : Storage.put ⟨[u'], true, false⟩ [true] 3 w = .ok (⟨[u', n], true, false⟩, none) :=
    (Storage.put_of_full rfl (Table.put_full 3 small (by omega)) made).trans (Storage.put_of_fits rfl stored)
  have run := lock_run (run.mono fun _ _ _ => trivial) (show (switched t u).tasks 1 = .locking .merge from rfl) rfl
    trivial trivial
  have run := run.andThen (.merge 1) (.merge rfl order (Storage.chunkedMergeTables_single raw moved emptied true))
  have run := unlock_run run rfl rfl trivial
  obtain ⟨_, run⟩ := write_run run (lets_any _ 0 (.put 3 w)) rfl rfl nofun (.put third) rfl
  have run := run.andThen (.reset 1) (.reset rfl)
  have run := run.andThen (.finish 1) (.finish rfl)
  refine ⟨_, _, run, rfl, rfl, rfl, rfl, fun tid => ?_⟩
  by_cases same : tid = 1 <;> simp [setTask, switched, same]

end Goroutines

end Olric
