import Olric.Snapshot.Loader
import Olric.Snapshot.Snapshot
import Olric.Storage.TransportSpec

namespace Olric

/-- A storage as the writers and the snapshot use it, and the map that it stands for. An operation
that is fine acts on the storage as it does on the map. -/
structure MapStore (M : Type) where
  put : M → UInt64 → VData → Option StorageError → M → Prop
  delete : M → UInt64 → Option StorageError → M → Prop
  merge : M → M → Prop
  getRaw : M → UInt64 → Except StorageError Bytes → Prop
  Valid : M → Prop
  view : M → UInt64 → Option VData
  PutFine : M → UInt64 → VData → Prop
  DeleteFine : M → UInt64 → Option StorageError → Prop
  MergeFine : M → Prop
  put_view : ∀ {m hkey v err m'}, Valid m → PutFine m hkey v → put m hkey v err m' →
    Valid m' ∧ view m' = if err = none then Function.update (view m) hkey (some v) else view m
  delete_view : ∀ {m hkey err m'}, Valid m → DeleteFine m hkey err → delete m hkey err m' →
    Valid m' ∧ err = none ∧ view m' = Function.update (view m) hkey none
  merge_view : ∀ {m m'}, Valid m → MergeFine m → merge m m' → Valid m' ∧ view m' = view m
  getRaw_view : ∀ {m hkey reply}, Valid m → getRaw m hkey reply →
    reply = (Storage.answer (view m hkey)).map fun v => v.encode ++ [0]
  fits : ∀ {m hkey v}, Valid m → view m hkey = some v → v.Fits

/-- The finite map itself, of the values that an entry of a table can hold: a put of a larger one
does not return. -/
def finiteMap : MapStore (Finmap fun _ : UInt64 => { v : VData // v.Fits }) where
  put m hkey v err m' := (∃ fits : v.Fits, err = none ∧ m' = m.insert hkey ⟨v, fits⟩) ∨
    maxKeyLen ≤ v.key.length ∧ err = some .keyTooLarge ∧ m' = m
  delete m hkey err m' := err = none ∧ m' = m.erase hkey
  merge m m' := m' = m
  getRaw m hkey reply := reply = (Storage.answer ((m.lookup hkey).map Subtype.val)).map fun v => v.encode ++ [0]
  Valid _ := True
  view m hkey := (m.lookup hkey).map Subtype.val
  PutFine _ _ _ := True
  DeleteFine _ _ _ := True
  MergeFine _ := True
  put_view {m hkey v err m'} _ _ run := by
    refine ⟨trivial, ?_⟩
    rcases run with ⟨fits, rfl, rfl⟩ | ⟨_, rfl, rfl⟩
    · funext other
      by_cases same : other = hkey
      · subst same
        simp
      · simp [same]
    · simp
  delete_view {m hkey err m'} _ _ run := by
    obtain ⟨rfl, rfl⟩ := run
    refine ⟨trivial, rfl, ?_⟩
    funext other
    by_cases same : other = hkey
    · subst same
      simp
    · simp [same]
  merge_view _ _ run := ⟨trivial, by rw [run]⟩
  getRaw_view _ run := run
  fits {m hkey v} _ found := by
    obtain ⟨stored, _, rfl⟩ := Option.map_eq_some_iff.1 found
    exact stored.2

/-- The storage acts as a map as long as it has one version of each key, and no system call of a
delete fails. -/
def tableStore : MapStore Storage where
  put s hkey v err s' := ∃ mmaps, s.put mmaps hkey v = .ok (s', err)
  delete s hkey err s' := ∃ mmapOk, s.delete mmapOk hkey = .ok (s', err)
  merge s s' := (∃ order mmapOk done, s.MergeOrder order ∧ s.chunkedMergeTables order mmapOk = .ok (done, s')) ∨
    s' = { s with merging := false }
  getRaw s hkey reply := s.getRaw hkey = .ok reply
  Valid := Storage.Valid
  view s := s.layers.lookup
  PutFine _ _ v := v.value.length < 2 ^ 32
  DeleteFine s hkey err := err = none ∧ s.copies hkey ≤ 1
  MergeFine s := ∀ hkey, s.copies hkey ≤ 1
  put_view {s hkey v err s'} valid short run := by
    obtain ⟨mmaps, run⟩ := run
    cases err with
    | none => simpa using Storage.put_spec valid short run
    | some e => simpa using Storage.put_failed valid run
  delete_view {s hkey err s'} valid fine run := by
    obtain ⟨mmapOk, run⟩ := run
    obtain ⟨valid', others, _⟩ := Storage.delete_spec valid run
    refine ⟨valid', fine.1, ?_⟩
    funext other
    by_cases same : other = hkey
    · subst same
      rw [Function.update_self, Storage.delete_lookup_eq_none_iff valid run, ← Storage.copies_eq_holders]
      exact fine.2
    · rw [Function.update_of_ne same, others other same]
  merge_view {s s'} valid single run := by
    rcases run with ⟨order, mmapOk, done, orders, run⟩ | rfl
    · have separate : s.layers.Separate := fun hkey => by
        rw [← Storage.copies_eq_holders]
        exact single hkey
      exact Storage.chunkedMergeTables_spec valid orders separate run
    · exact ⟨⟨valid.nonempty, valid.tables⟩, rfl⟩
  getRaw_view valid run := Except.ok.inj (run.symm.trans (Storage.getRaw_eq valid _))
  fits valid found := valid.fits found

/-- What a writer does to the dmap and its oplog. -/
inductive WriteStep
  | lock
  | unlock
  | put (hkey : UInt64) (value : VData)
  | delete (hkey : UInt64)
  | log (hkey : UInt64) (op : LogOp)
deriving DecidableEq

/-- The operations that change a dmap: `putKeyVal` and `delKeyVal` on the primary owner, which
`givenUp` stands for when another member has failed, `deletePrevOperation` on a previous owner, and
the last two on a backup. -/
inductive Writer
  | putKeyVal (hkey : UInt64) (value : VData)
  | delKeyVal (hkey : UInt64)
  | givenUp
  | deletePrevOperation (hkey : UInt64)
  | putBackupOperation (hkey : UInt64) (value : VData)
  | deleteBackupOperation (hkey : UInt64)

namespace Writer

/-- `delKeyVal` logs first, and `putBackupOperation` does not take the mutex. -/
def steps : Writer → List WriteStep
  | .putKeyVal hkey value => [.lock, .put hkey value, .log hkey .put, .unlock]
  | .delKeyVal hkey => [.lock, .log hkey .delete, .delete hkey, .unlock]
  | .givenUp => [.lock, .unlock]
  | .deletePrevOperation hkey => [.lock, .delete hkey, .log hkey .delete, .unlock]
  | .putBackupOperation hkey value => [.put hkey value, .log hkey .put]
  | .deleteBackupOperation hkey => [.lock, .delete hkey, .log hkey .delete, .unlock]

def OnPrimary : Writer → Prop
  | .putKeyVal .. | .delKeyVal _ | .givenUp | .deletePrevOperation _ => True
  | .putBackupOperation .. | .deleteBackupOperation _ => False

def OnBackup : Writer → Prop
  | .putBackupOperation .. | .deleteBackupOperation _ => True
  | .putKeyVal .. | .delKeyVal _ | .givenUp | .deletePrevOperation _ => False

end Writer

/-- What is left of the steps after the storage has returned an error: the deferred unlock. -/
def afterError (steps : List WriteStep) : List WriteStep := steps.filter fun step => step = .unlock

namespace Batch

/-- A logged put with the answer of `GetRaw`. -/
def addPut (wb : Batch) (hkey : UInt64) : Except StorageError Bytes → Batch
  | .ok val => { wb with db := wb.db.set (bkey hkey) (.raw val), hkeys := insert hkey wb.hkeys }
  | .error .keyNotFound => wb
  | .error _ => wb.fail hkey .put

def addDelete (wb : Batch) (hkey : UInt64) : Batch :=
  { wb with db := wb.db.delete (bkey hkey), hkeys := wb.hkeys.erase hkey }

theorem add_put (wb : Batch) (str : Storage) (hkey : UInt64) :
    wb.add str (fun _ => true) hkey .put = (str.getRaw hkey).map (wb.addPut hkey) := by
  unfold add
  cases str.getRaw hkey with
  | error halt => rfl
  | ok reply => rcases reply with (_ | _ | _ | _ | _) | val <;> rfl

theorem add_delete (wb : Batch) (str : Storage) (hkey : UInt64) :
    wb.add str (fun _ => true) hkey .delete = .ok (wb.addDelete hkey) := rfl

end Batch

/-- Where the worker is in a sync round of the dmap. -/
inductive Syncing
  | idle
  | drained (wcopy : List (UInt64 × LogOp))
  | adding (todo : List (UInt64 × LogOp)) (wb : Batch)
  | relogging (failed : List (UInt64 × LogOp))

/-- One dmap with its oplog, the goroutines that write to it, the worker that syncs it, and the store. -/
structure Site (M : Type) where
  str : M
  log : Finmap fun _ : UInt64 => LogOp
  mutex : Option Tid
  writers : Tid → List WriteStep
  worker : Syncing
  db : Badger

inductive SiteLabel
  | start (tid : Tid) (w : Writer)
  | lock (tid : Tid)
  | unlock (tid : Tid)
  | put (tid : Tid)
  | delete (tid : Tid) (err : Option StorageError)
  | log (tid : Tid)
  | merge
  | drain
  | view
  | add
  | flush
  | relog

/-- The worker's steps, and those of the storage on its own. -/
def SiteLabel.Quiet : SiteLabel → Prop
  | .merge | .drain | .view | .add | .flush | .relog => True
  | .start .. | .lock _ | .unlock _ | .put _ | .delete .. | .log _ => False

/-- The dmap, and who may write to it. -/
structure SiteOf (M : Type) where
  store : MapStore M
  partID : UInt64
  name : Bytes
  writes : Writer → Prop

namespace Site

variable {M : Type}

def setWriter (s : Site M) (tid : Tid) (steps : List WriteStep) : Site M :=
  { s with writers := Function.update s.writers tid steps }

end Site

namespace SiteOf

variable {M : Type} (o : SiteOf M)

/-- Badger does not fail. A round that finds the oplog empty ends at once. -/
inductive Step : Site M → SiteLabel → Site M → Prop
  | start {s tid w} (free : s.writers tid = []) (may : o.writes w) : Step s (.start tid w) (s.setWriter tid w.steps)
  | lock {s tid rest} (next : s.writers tid = .lock :: rest) (free : s.mutex = none) :
      Step s (.lock tid) { s.setWriter tid rest with mutex := some tid }
  | unlock {s tid rest} (next : s.writers tid = .unlock :: rest) :
      Step s (.unlock tid) { s.setWriter tid rest with mutex := none }
  | put {s tid hkey value rest err str} (next : s.writers tid = .put hkey value :: rest)
      (run : o.store.put s.str hkey value err str) :
      Step s (.put tid) { s.setWriter tid (if err = none then rest else afterError rest) with str }
  | delete {s tid hkey rest err str} (next : s.writers tid = .delete hkey :: rest)
      (run : o.store.delete s.str hkey err str) :
      Step s (.delete tid err) { s.setWriter tid (if err = none then rest else afterError rest) with str }
  | log {s tid hkey op rest} (next : s.writers tid = .log hkey op :: rest) :
      Step s (.log tid) { s.setWriter tid rest with log := s.log.insert hkey op }
  | merge {s str} (run : o.store.merge s.str str) : Step s .merge { s with str }
  | drain {s wcopy} (idle : s.worker = .idle) (nodup : (wcopy.map Prod.fst).Nodup)
      (complete : ∀ hkey op, (hkey, op) ∈ wcopy ↔ s.log.lookup hkey = some op) :
      Step s .drain { s with log := ∅, worker := if wcopy = [] then .idle else .drained wcopy }
  | view {s wcopy hkeys} (drained : s.worker = .drained wcopy) (read : s.db.hkeysOrNew o.partID o.name = .ok hkeys) :
      Step s .view { s with worker := .adding wcopy ⟨s.db, hkeys, []⟩ }
  | addPut {s hkey todo wb reply} (adding : s.worker = .adding ((hkey, .put) :: todo) wb)
      (read : o.store.getRaw s.str hkey reply) : Step s .add { s with worker := .adding todo (wb.addPut hkey reply) }
  | addDelete {s hkey todo wb} (adding : s.worker = .adding ((hkey, .delete) :: todo) wb) :
      Step s .add { s with worker := .adding todo (wb.addDelete hkey) }
  | flush {s wb} (adding : s.worker = .adding [] wb) :
      Step s .flush { s with
        db := wb.db.set (dmapKey o.partID o.name) (.hkeys wb.hkeys)
        worker := if wb.failed = [] then .idle else .relogging wb.failed }
  | relog {s failed} (relogging : s.worker = .relogging failed) :
      Step s .relog { s with
        log := failed.foldl (fun log e => if e.1 ∈ log then log else log.insert e.1 e.2) s.log
        worker := .idle }

/-- The record of hkeys lists what is in memory, and every value can be decoded. -/
structure Saved (db : Badger) (m : M) : Prop where
  listed : ∃ hkeys, db.hkeysOrNew o.partID o.name = .ok hkeys ∧ ∀ hkey, hkey ∈ hkeys ↔ o.store.view m hkey ≠ none
  values : ∀ hkey v, o.store.view m hkey = some v → ∃ raw, db (bkey hkey) = some (.raw raw) ∧ decodeRaw raw = .ok v

/-- A dmap that is new, or has been restored. -/
def system : Transitions (Site M) SiteLabel where
  init s := o.store.Valid s.str ∧ s.log = ∅ ∧ s.mutex = none ∧ (∀ tid, s.writers tid = []) ∧ s.worker = .idle ∧
    o.Saved s.db s.str
  step := o.Step

/-- The operations act on the storage as on a map. -/
def Fine (s : Site M) : SiteLabel → Prop
  | .put tid => ∀ hkey value rest, s.writers tid = .put hkey value :: rest → o.store.PutFine s.str hkey value
  | .delete tid err => ∀ hkey rest, s.writers tid = .delete hkey :: rest → o.store.DeleteFine s.str hkey err
  | .merge => o.store.MergeFine s.str
  | _ => True

section Round

variable {partID : UInt64} {name : Bytes} {writes : Writer → Prop} {s : Site Storage}

/-- The worker makes a batch while nobody else acts. -/
theorem addAll_reaches {wb wb' : Batch} (ops : List (Sigma fun _ : UInt64 => LogOp))
    (added : wb.addAll s.str (fun _ => true) ops = .ok wb')
    (reach : (SiteOf.mk tableStore partID name writes).system.Reachable
      { s with worker := .adding (ops.map fun e => (e.1, e.2)) wb }) :
    (SiteOf.mk tableStore partID name writes).system.Reachable { s with worker := .adding [] wb' } := by
  induction ops generalizing wb with
  | nil =>
    cases added
    exact reach
  | cons e ops ih =>
    obtain ⟨hkey, op⟩ := e
    rw [Batch.addAll] at added
    cases op with
    | put =>
      rw [Batch.add_put] at added
      cases read : s.str.getRaw hkey with
      | error halt =>
        rw [read] at added
        cases added
      | ok reply =>
        rw [read] at added
        exact ih added (reach.andThen .add (.addPut rfl read))
    | delete =>
      rw [Batch.add_delete] at added
      exact ih added (reach.andThen .add (.addDelete rfl))

/-- `syncDMap` as a whole is a round of the worker in which nobody else acts and Badger does not fail. -/
theorem syncDMap_reaches {log : OpLog} {hkeys : Finset UInt64} {db : Badger} {failed : List (UInt64 × LogOp)}
    (busy : log.m.entries ≠ []) (same : log.str = s.str) (read : s.db.hkeysOrNew partID name = .ok hkeys)
    (run : syncDMap s.db partID name log .success = .ok (db, failed))
    (reach : (SiteOf.mk tableStore partID name writes).system.Reachable
      { s with worker := .drained (log.m.entries.map fun e => (e.1, e.2)) }) :
    (SiteOf.mk tableStore partID name writes).system.Reachable
      { s with db, worker := if failed = [] then .idle else .relogging failed } := by
  have starts : ¬ (log.m.entries = [] ∨ ¬ SyncOutcome.success.view = true) := by simp [busy, SyncOutcome.success]
  rw [syncDMap, if_neg starts, read, same] at run
  dsimp only [SyncOutcome.success] at run
  cases added : Batch.addAll s.str (fun _ => true) ⟨s.db, hkeys, []⟩ log.m.entries with
  | error halt =>
    rw [added] at run
    cases run
  | ok wb =>
    rw [added] at run
    cases run
    exact (addAll_reaches log.m.entries added (reach.andThen .view (.view rfl read))).andThen .flush (.flush rfl)

end Round

end SiteOf

end Olric
