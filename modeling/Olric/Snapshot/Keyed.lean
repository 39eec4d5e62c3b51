import Olric.Snapshot.SyncSpec

namespace Olric

/-- The records of hkeys list only hkeys that `own` allows for their key. -/
def Badger.Lists (own : UInt64 → Bytes → Prop) (db : Badger) : Prop :=
  ∀ key hkeys, db key = some (.hkeys hkeys) → ∀ hkey ∈ hkeys, own hkey key

namespace Badger

variable {own : UInt64 → Bytes → Prop} {db : Badger} {dkey : DKey} {partID : UInt64} {name : Bytes}

theorem Lists.set_dmaps (lists : db.Lists own) (value : Finset (UInt64 × Bytes)) :
    (db.set dkey.bytes (.dmaps value)).Lists own := by
  intro key hkeys found
  by_cases same : key = dkey.bytes
  · subst same
    rw [Badger.set, Function.update_self] at found
    cases found
  · rw [Badger.set, Function.update_of_ne same] at found
    exact lists key hkeys found

theorem Lists.deleteValues (lists : db.Lists own) (hkeys : Finset UInt64) : (db.deleteValues hkeys).Lists own := by
  intro key listed found
  unfold Badger.deleteValues at found
  split at found
  · cases found
  · exact lists key listed found

theorem hkeysOrNew_ok {hkeys : Finset UInt64} (run : db.hkeysOrNew partID name = .ok hkeys) :
    db.hkeys partID name = .ok hkeys ∨ db (dmapKey partID name) = none ∧ hkeys = ∅ := by
  unfold Badger.hkeysOrNew at run
  split at run
  · rename_i absent
    cases run
    unfold Badger.hkeys at absent
    split at absent
    · cases absent
    · cases absent
    · rename_i missing
      exact .inr ⟨missing, rfl⟩
  · exact .inl run

/-- A batch from the operations of an oplog lists the hkeys of the dmap and of the oplog. -/
theorem Lists.flush {hkeys : Finset UInt64} {log : OpLog} {wb : Batch} (lists : db.Lists own)
    (start : db.hkeysOrNew partID name = .ok hkeys) (made : wb.From db hkeys log)
    (logged : ∀ hkey ∈ log.m, own hkey (dmapKey partID name)) :
    wb.db.Lists own ∧ (wb.db.set (dmapKey partID name) (.hkeys wb.hkeys)).Lists own := by
  have inner : wb.db.Lists own := by
    intro key listed found
    by_cases value : ∃ hkey, key = bkey hkey
    · obtain ⟨hkey, rfl⟩ := value
      rcases made.values hkey with same | none | ⟨val, _, same⟩
      · exact lists _ _ (same.symm.trans found)
      · rw [none] at found
        cases found
      · cases same.symm.trans found
    · rw [made.outside key fun hkey _ eq => value ⟨hkey, eq⟩] at found
      exact lists key listed found
  refine ⟨inner, fun key listed found => ?_⟩
  by_cases same : key = dmapKey partID name
  · subst same
    rw [Badger.set, Function.update_self] at found
    cases found
    intro hkey mem
    rcases made.listed hkey mem with kept | new
    · rcases hkeysOrNew_ok start with known | ⟨_, none⟩
      · exact lists _ _ (hkeys_ok.1 known) hkey kept
      · rw [none] at kept
        exact absurd kept (Finset.notMem_empty hkey)
    · exact logged hkey new
  · rw [Badger.set, Function.update_of_ne same] at found
    exact inner key listed found

end Badger

namespace Snapshot

variable {hashing : Hashing} {own : UInt64 → Bytes → Prop} {s s' : Snapshot}

/-- The records and the oplogs have only hkeys that `own` allows for the dmap, and an oplog is kept
under the partition and the name of its dmap. -/
structure Keyed (own : UInt64 → Bytes → Prop) (s : Snapshot) : Prop where
  lists : s.db.Lists own
  logged : ∀ h log hkey, s.logs h = some log → hkey ∈ log.m → own hkey (dmapKey h.partID h.name)
  placed : s.Placed

/-- The hkeys of puts and deletes are those that `own` allows. -/
def UsesOwn (hashing : Hashing) (own : UInt64 → Bytes → Prop) : SnapshotOp → Prop
  | .put h key _ _ _ => own (getHKey hashing.sum64 h.name key) (dmapKey h.partID h.name)
  | .delete h key _ _ => own (getHKey hashing.sum64 h.name key) (dmapKey h.partID h.name)
  | _ => True

theorem keyed_empty : empty.Keyed own where
  lists key hkeys found := by cases found
  logged h log hkey found := by cases found
  placed partID name h found := by cases found

theorem Keyed.setLog {h : Handle} {log : OpLog} (keyed : s.Keyed own)
    (logged : ∀ hkey ∈ log.m, own hkey (dmapKey h.partID h.name)) : (s.setLog h log).Keyed own where
  lists := keyed.lists
  placed := keyed.placed
  logged h' log' hkey found mem := by
    rcases setLog_found.1 found with ⟨rfl, rfl⟩ | ⟨_, found⟩
    · exact logged hkey mem
    · exact keyed.logged h' log' hkey found mem

/-- One more operation in the oplog, or the oplog as it is. -/
theorem Keyed.log {h : Handle} {log : OpLog} {hkey : UInt64} {op : LogOp} {str : Storage} {logs : Prop}
    [Decidable logs] (keyed : s.Keyed own) (found : s.logs h = some log)
    (allowed : own hkey (dmapKey h.partID h.name)) :
    (s.setLog h ⟨if logs then log.m.insert hkey op else log.m, str⟩).Keyed own := by
  refine keyed.setLog fun other mem => ?_
  dsimp only at mem
  split at mem
  · rcases (AList.mem_insert _).1 mem with rfl | mem
    · exact allowed
    · exact keyed.logged h log other found mem
  · exact keyed.logged h log other found mem

theorem Keyed.register {h : Handle} {str : Storage} (keyed : s.Keyed own) (run : s.Registers h str s') :
    s'.Keyed own := by
  obtain ⟨value, same, _⟩ := Badger.registerOnBadger_ok run.db
  refine ⟨?_, ?_, run.placed keyed.placed⟩
  · rw [same]
    exact keyed.lists.set_dmaps _
  · intro h' log hkey found mem
    rw [run.logs] at found
    by_cases eq : h' = h
    · subst eq
      rw [Function.update_self] at found
      cases found
      exact absurd mem (AList.notMem_empty hkey)
    · rw [Function.update_of_ne eq] at found
      exact keyed.logged h' log hkey found mem

theorem Keyed.unregister {dkey : DKey} {partID : UInt64} {name : Bytes} (keyed : s.Keyed own)
    (run : s.Unregisters dkey partID name s') : s'.Keyed own := by
  obtain ⟨value, _, same⟩ := Badger.unregisterOnBadger_ok run.db
  refine ⟨?_, ?_, run.placed keyed.placed⟩
  · rw [same]
    exact keyed.lists.set_dmaps _
  · rw [run.logs]
    exact keyed.logged

theorem Keyed.unregisterDMap (keyed : s.Keyed own) (dkey : DKey) (partID : UInt64) (name : Bytes) :
    (s.unregisterDMap dkey partID name).1.Keyed own := by
  rcases unregisterDMap_cases s dkey partID name with ⟨same, _⟩ | run
  · rwa [same]
  · exact keyed.unregister run

theorem Keyed.destroyDMap (keyed : s.Keyed own) (dkey : DKey) (partID : UInt64) (name : Bytes) :
    (s.destroyDMap dkey partID name).1.Keyed own := by
  rcases destroyDMap_cases s dkey partID name with same | ⟨hkeys, _, same⟩
  · rwa [same]
  · rw [same]
    have deleted : Keyed own { s with db := s.db.deleteValues hkeys } :=
      ⟨keyed.lists.deleteValues hkeys, keyed.logged, keyed.placed⟩
    exact deleted.unregisterDMap dkey partID name

theorem Keyed.syncEntry {partID : UInt64} {name : Bytes} {h : Handle} {out : Bytes → SyncOutcome}
    (keyed : s.Keyed own) (registered : (s.oplogs partID).lookup name = some h)
    (run : s.syncEntry partID out name h = .ok s') : s'.Keyed own := by
  rcases syncEntry_cases run with ⟨_, rfl⟩ | ⟨log, db, failed, found, synced, rfl⟩
  · exact keyed
  obtain ⟨rfl, rfl⟩ := keyed.placed partID name h registered
  have logged := fun hkey => keyed.logged h log hkey found
  obtain ⟨again, stored⟩ := syncDMap_cases synced
  have lists : db.Lists own := by
    rcases stored with ⟨rfl, _⟩ | ⟨hkeys, wb, start, made, ⟨_, rfl⟩ | ⟨_, rfl⟩⟩
    · exact keyed.lists
    · exact (keyed.lists.flush start made logged).2
    · exact (keyed.lists.flush start made logged).1
  refine Keyed.setLog (s := { s with db := db }) ⟨lists, keyed.logged, keyed.placed⟩ fun hkey mem => ?_
  rcases OpLog.mem_relog mem with none | ⟨e, listed, rfl⟩
  · exact absurd none (AList.notMem_empty hkey)
  · exact logged e.1 (again e listed)

theorem Keyed.sync {partID : UInt64} {out : Bytes → SyncOutcome} (keyed : s.Keyed own)
    (run : s.sync partID out = .ok s') : s'.Keyed own := by
  refine sync_induct (fun mid => mid.Keyed own) ?_ keyed run
  intro mid mid' name h registered same keyed now
  rw [← same] at registered
  exact keyed.syncEntry registered now

theorem Keyed.step {op : SnapshotOp} (keyed : s.Keyed own) (allowed : UsesOwn hashing own op)
    (step : Step hashing s op s') : s'.Keyed own := by
  cases step with
  | @create h str _ _ =>
    rcases registerDMap_cases s h str with ⟨same, _⟩ | run
    · rwa [same]
    · exact keyed.register run
  | put found => exact keyed.log found allowed
  | delete found => exact keyed.log found allowed
  | @merge h order mmapOk done log str found => exact keyed.setLog fun hkey => keyed.logged h log hkey found
  | @mergeExit h log found => exact keyed.setLog fun hkey => keyed.logged h log hkey found
  | sync run => exact keyed.sync run
  | unregister => exact keyed.unregisterDMap _ _ _
  | destroy => exact keyed.destroyDMap _ _ _

end Snapshot

end Olric
