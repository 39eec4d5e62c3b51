import Olric.Snapshot.Loader
import Olric.Snapshot.SyncSpec

namespace Olric

def DKey.other : DKey → DKey
  | .primary => .backup
  | .backup => .primary

theorem DKey.other_ne (dkey : DKey) : dkey.other ≠ dkey := by
  cases dkey <;> decide

/-- Two stores that differ at one key only. -/
def Badger.Agree (except : Bytes) (db db' : Badger) : Prop := ∀ key, key ≠ except → db' key = db key

namespace Badger

variable {except : Bytes} {db db' : Badger} {dkey : DKey}

theorem Agree.set (agree : db.Agree except db') (key : Bytes) (record : Record) :
    (db.set key record).Agree except (db'.set key record) := by
  intro other ne
  by_cases same : other = key
  · subst same
    simp [Badger.set]
  · simpa [Badger.set, same] using agree other ne

theorem Agree.delete (agree : db.Agree except db') (key : Bytes) : (db.delete key).Agree except (db'.delete key) := by
  intro other ne
  by_cases same : other = key
  · subst same
    simp [Badger.delete]
  · simpa [Badger.delete, same] using agree other ne

theorem Agree.set_left (agree : db.Agree except db') (record : Record) : (db.set except record).Agree except db' := by
  intro other ne
  rw [Badger.set, Function.update_of_ne ne]
  exact agree other ne

theorem Agree.set_right (agree : db.Agree except db') (record : Record) :
    db.Agree except (db'.set except record) := by
  intro other ne
  rw [Badger.set, Function.update_of_ne ne]
  exact agree other ne

theorem Agree.deleteValues (agree : db.Agree except db') (hkeys : Finset UInt64) :
    (db.deleteValues hkeys).Agree except (db'.deleteValues hkeys) := by
  intro other ne
  unfold Badger.deleteValues
  rw [agree other ne]

theorem Agree.dmaps {d : DKey} (agree : db.Agree dkey.bytes db') (ne : d ≠ dkey) : db'.dmaps d = db.dmaps d := by
  unfold Badger.dmaps
  rw [agree d.bytes fun eq => ne (DKey.bytes_injective eq)]

theorem Agree.hkeys (agree : db.Agree dkey.bytes db') (partID : UInt64) (name : Bytes) :
    db'.hkeys partID name = db.hkeys partID name := by
  unfold Badger.hkeys
  rw [agree _ (dmapKey_ne_dkey partID name dkey)]

end Badger

/-- Two batches with the same hkeys and failures, for stores that agree. -/
structure Batch.Agree (except : Bytes) (wb wb' : Batch) : Prop where
  db : wb.db.Agree except wb'.db
  hkeys : wb'.hkeys = wb.hkeys
  failed : wb'.failed = wb.failed

section

variable {except : Bytes} {wb wb' : Batch} {str : Storage} {accepts : UInt64 → Bool}

theorem Batch.Agree.fail (agree : wb.Agree except wb') (hkey : UInt64) (op : LogOp) :
    (wb.fail hkey op).Agree except (wb'.fail hkey op) where
  db := agree.db
  hkeys := agree.hkeys
  failed := by simp [Batch.fail, agree.failed]

theorem Batch.Agree.add {wb₁ : Batch} {hkey : UInt64} {op : LogOp} (agree : wb.Agree except wb')
    (run : wb.add str accepts hkey op = .ok wb₁) :
    ∃ wb₁', wb'.add str accepts hkey op = .ok wb₁' ∧ wb₁.Agree except wb₁' := by
  cases op with
  | put =>
    rw [Batch.add] at run ⊢
    cases read : str.getRaw hkey with
    | error halt =>
      rw [read] at run
      cases run
    | ok answer =>
      rw [read] at run
      cases answer with
      | ok val =>
        dsimp only [bind, Except.bind] at run ⊢
        split at run <;> cases run
        · rename_i accepted
          rw [if_pos accepted]
          exact ⟨_, rfl, agree.db.set _ _, by rw [agree.hkeys], agree.failed⟩
        · rename_i rejected
          rw [if_neg rejected]
          exact ⟨_, rfl, agree.fail hkey .put⟩
      | error e =>
        cases e with
        | keyNotFound =>
          cases run
          exact ⟨_, rfl, agree⟩
        | notEnoughSpace | keyTooLarge | fragmented | mmap =>
          cases run
          exact ⟨_, rfl, agree.fail hkey .put⟩
  | delete =>
    rw [Batch.add] at run ⊢
    split at run <;> cases run
    · rename_i accepted
      rw [if_pos accepted]
      exact ⟨_, rfl, agree.db.delete _, by rw [agree.hkeys], agree.failed⟩
    · rename_i rejected
      rw [if_neg rejected]
      exact ⟨_, rfl, agree.fail hkey .delete⟩

theorem Batch.Agree.addAll {wb₁ : Batch} {ops : List (Sigma fun _ : UInt64 => LogOp)} (agree : wb.Agree except wb')
    (run : wb.addAll str accepts ops = .ok wb₁) :
    ∃ wb₁', wb'.addAll str accepts ops = .ok wb₁' ∧ wb₁.Agree except wb₁' := by
  induction ops generalizing wb wb' with
  | nil =>
    cases run
    exact ⟨wb', rfl, agree⟩
  | cons e ops ih =>
    rw [Batch.addAll] at run
    cases first : wb.add str accepts e.1 e.2 with
    | error halt =>
      rw [first] at run
      cases run
    | ok mid =>
      rw [first] at run
      obtain ⟨mid', first', agree'⟩ := agree.add first
      obtain ⟨wb₁', rest, last⟩ := ih agree' run
      refine ⟨wb₁', ?_, last⟩
      rw [Batch.addAll, first']
      exact rest

end

/-- A sync does not look at the names of a dkey. -/
theorem syncDMap_agree {dkey : DKey} {db db' db₁ : Badger} {partID : UInt64} {name : Bytes} {log : OpLog}
    {out : SyncOutcome} {failed : List (UInt64 × LogOp)} (agree : db.Agree dkey.bytes db')
    (run : syncDMap db partID name log out = .ok (db₁, failed)) :
    ∃ db₁', syncDMap db' partID name log out = .ok (db₁', failed) ∧ db₁.Agree dkey.bytes db₁' := by
  have start : db'.hkeysOrNew partID name = db.hkeysOrNew partID name := by
    unfold Badger.hkeysOrNew
    rw [agree.hkeys]
  unfold syncDMap at run ⊢
  rw [start]
  split at run
  · rename_i idle
    rw [if_pos idle]
    cases run
    exact ⟨db', rfl, agree⟩
  · rename_i busy
    rw [if_neg busy]
    cases known : db.hkeysOrNew partID name with
    | error e =>
      rw [known] at run
      cases run
      exact ⟨db', rfl, agree⟩
    | ok hkeys =>
      rw [known] at run
      dsimp only at run ⊢
      cases added : Batch.addAll log.str out.accepts ⟨db, hkeys, []⟩ log.m.entries with
      | error halt =>
        rw [added] at run
        cases run
      | ok wb =>
        have batches : Batch.Agree dkey.bytes ⟨db, hkeys, []⟩ ⟨db', hkeys, []⟩ := ⟨agree, rfl, rfl⟩
        obtain ⟨wb', added', same⟩ := batches.addAll added
        rw [added] at run
        rw [added']
        dsimp only [bind, Except.bind] at run ⊢
        rw [same.hkeys, same.failed]
        have flush {store store' : Badger} (flushed : store.Agree dkey.bytes store') :
            (if out.flush then store else db).Agree dkey.bytes (if out.flush then store' else db') := by
          split
          · exact flushed
          · exact agree
        split at run <;> rename_i recorded
        · rw [if_pos recorded]
          cases run
          exact ⟨_, rfl, flush (same.db.set _ _)⟩
        · rw [if_neg recorded]
          cases run
          exact ⟨_, rfl, flush same.db⟩

namespace Badger

variable {db db' : Badger} {dkey d : DKey} {partID : UInt64} {name : Bytes}

/-- The names of both dkeys can be read. -/
def NamesRead (db : Badger) : Prop := ∀ dkey e, db.dmaps dkey = .error e → e = .keyNotFound

theorem NamesRead.set_dmaps (read : db.NamesRead) (value : Finset (UInt64 × Bytes)) :
    (db.set dkey.bytes (.dmaps value)).NamesRead := by
  intro other e failed
  rw [set_dkey_dmaps] at failed
  split at failed
  · cases failed
  · exact read other e failed

theorem NamesRead.congr (read : db.NamesRead) (same : ∀ dkey : DKey, db' dkey.bytes = db dkey.bytes) :
    db'.NamesRead := by
  intro dkey e failed
  unfold Badger.dmaps at failed
  rw [same] at failed
  exact read dkey e failed

theorem NamesRead.registerOnBadger (read : db.NamesRead) (dkey : DKey) (partID : UInt64) (name : Bytes) :
    ∃ db', db.registerOnBadger dkey partID name = .ok db' := by
  unfold Badger.registerOnBadger
  cases found : db.dmaps dkey with
  | ok value => exact ⟨_, rfl⟩
  | error e =>
    cases read dkey e found
    exact ⟨_, rfl⟩

theorem Agree.registerOnBadger {db₁ db₁' : Badger} (agree : db.Agree dkey.bytes db')
    (run : db.registerOnBadger d partID name = .ok db₁) (run' : db'.registerOnBadger d partID name = .ok db₁') :
    db₁.Agree dkey.bytes db₁' := by
  by_cases same : d = dkey
  · subst same
    obtain ⟨value, rfl, _⟩ := registerOnBadger_ok run
    obtain ⟨value', rfl, _⟩ := registerOnBadger_ok run'
    exact (agree.set_left _).set_right _
  · unfold Badger.registerOnBadger at run run'
    rw [agree.dmaps same] at run'
    split at run
    · rename_i value found
      rw [found] at run'
      cases run
      cases run'
      exact agree.set _ _
    · rename_i absent
      rw [absent] at run'
      cases run
      cases run'
      exact agree.set _ _
    · cases run

theorem Agree.unregisterOnBadger {db₁ db₁' : Badger} (agree : db.Agree dkey.bytes db')
    (run : db.unregisterOnBadger d partID name = .ok db₁) (run' : db'.unregisterOnBadger d partID name = .ok db₁') :
    db₁.Agree dkey.bytes db₁' := by
  obtain ⟨value, found, rfl⟩ := unregisterOnBadger_ok run
  obtain ⟨value', found', rfl⟩ := unregisterOnBadger_ok run'
  by_cases same : d = dkey
  · subst same
    exact (agree.set_left _).set_right _
  · rw [agree.dmaps same, found] at found'
    cases found'
    exact agree.set _ _

end Badger

/-- What a loader restores under a dkey does not depend on the names under the other one. -/
theorem loadAll_agree {dkey : DKey} {db db' : Badger} (agree : db.Agree dkey.bytes db') (mmaps : List Bool)
    (visits : List Visit) : loadAll db' mmaps visits = loadAll db mmaps visits := by
  have values (order : List UInt64) (o : Storage) :
      loadFromBadger db' mmaps o order = loadFromBadger db mmaps o order := by
    induction order generalizing o with
    | nil => rfl
    | cons hkey order ih =>
      unfold loadFromBadger
      simp only [agree _ (bkey_ne_dkey hkey dkey), ih]
  have dmaps (visit : Visit) : loadDMap db' mmaps visit.partID visit.name visit.order =
      loadDMap db mmaps visit.partID visit.name visit.order := by
    simp only [loadDMap, agree.hkeys, values]
  induction visits with
  | nil => rfl
  | cons visit visits ih => simp only [loadAll, dmaps, ih]

end Olric
