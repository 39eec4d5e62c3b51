import Mathlib.Data.List.AList
import Olric.Lib.Transitions
import Olric.Node.Handlers
import Olric.Snapshot.Badger
import Olric.Storage.MergeSpec

namespace Olric

/-- The address of a dmap object, with the table of partitions, the partition and the name that it
has been made for. -/
structure Handle where
  dkey : DKey
  partID : UInt64
  name : Bytes
  birth : Nat
deriving DecidableEq

/-- A Go map gives its entries in an order of its own; no loop over one depends on it. -/
structure OpLog where
  m : AList fun _ : UInt64 => LogOp
  str : Storage

/-- The goroutine of a partition that has been started; its own context may be cancelled. -/
inductive Worker
  | running
  | cancelled
deriving DecidableEq

/-- The oplogs that a partition has no entry for are the empty map. -/
structure Snapshot where
  db : Badger
  workers : UInt64 → Option Worker
  oplogs : UInt64 → AList fun _ : Bytes => Handle
  logs : Handle → Option OpLog

/-- What Badger answers during a sync: to the read of the hkeys, to the changes of each value, to
the change of the hkeys and to the flush. -/
structure SyncOutcome where
  view : Bool
  accepts : UInt64 → Bool
  record : Bool
  flush : Bool

def SyncOutcome.success : SyncOutcome := ⟨true, fun _ => true, true, true⟩

/-- A write batch: the store once it is flushed, the hkeys of the dmap, and the operations to log
again. -/
structure Batch where
  db : Badger
  hkeys : Finset UInt64
  failed : List (UInt64 × LogOp)

namespace Batch

def fail (b : Batch) (hkey : UInt64) (op : LogOp) : Batch := { b with failed := b.failed ++ [(hkey, op)] }

/-- One logged operation. A key that is not in the storage any more is skipped. -/
def add (str : Storage) (accepts : UInt64 → Bool) (b : Batch) (hkey : UInt64) : LogOp → Except Halt Batch
  | .put => do
    match ← str.getRaw hkey with
    | .ok val =>
      if accepts hkey then
        pure { b with db := b.db.set (bkey hkey) (.raw val), hkeys := insert hkey b.hkeys }
      else pure (b.fail hkey .put)
    | .error .keyNotFound => pure b
    | .error _ => pure (b.fail hkey .put)
  | .delete =>
    if accepts hkey then pure { b with db := b.db.delete (bkey hkey), hkeys := b.hkeys.erase hkey }
    else pure (b.fail hkey .delete)

def addAll (str : Storage) (accepts : UInt64 → Bool) (b : Batch) :
    List (Sigma fun _ : UInt64 => LogOp) → Except Halt Batch
  | [] => pure b
  | ⟨hkey, op⟩ :: ops => do
    let b ← b.add str accepts hkey op
    addAll str accepts b ops

end Batch

/-- The hkeys that a sync starts from; there are none before the first one. -/
def Badger.hkeysOrNew (db : Badger) (partID : UInt64) (name : Bytes) : Except BadgerError (Finset UInt64) :=
  match db.hkeys partID name with
  | .error .keyNotFound => .ok ∅
  | answer => answer

/-- The store after the sync of a drained oplog, and the operations to log again. -/
def syncDMap (db : Badger) (partID : UInt64) (name : Bytes) (log : OpLog) (out : SyncOutcome) :
    Except Halt (Badger × List (UInt64 × LogOp)) :=
  if log.m.entries = [] ∨ ¬ out.view then pure (db, [])
  else
    match db.hkeysOrNew partID name with
    | .error _ => pure (db, [])
    | .ok hkeys => do
      let wb ← Batch.addAll log.str out.accepts ⟨db, hkeys, []⟩ log.m.entries
      let flushed := fun store => if out.flush then store else db
      if out.record then pure (flushed (wb.db.set (dmapKey partID name) (.hkeys wb.hkeys)), wb.failed)
      else pure (flushed wb.db, log.m.entries.map fun e => (e.1, e.2))

/-- An operation on the hkey that has been logged meanwhile is kept. -/
def OpLog.relog (log : OpLog) (failed : List (UInt64 × LogOp)) : OpLog :=
  { log with m := failed.foldl (fun m e => if e.1 ∈ m then m else m.insert e.1 e.2) log.m }

namespace Snapshot

def setLog (s : Snapshot) (h : Handle) (log : OpLog) : Snapshot :=
  { s with logs := Function.update s.logs h (some log) }

def setWorker (s : Snapshot) (partID : UInt64) (w : Worker) : Snapshot :=
  { s with workers := Function.update s.workers partID (some w) }

def setOplogs (s : Snapshot) (partID : UInt64) (dmaps : AList fun _ : Bytes => Handle) : Snapshot :=
  { s with oplogs := Function.update s.oplogs partID dmaps }

/-- The body of the worker's loop over the oplogs of its partition. -/
def syncEntry (s : Snapshot) (partID : UInt64) (out : Bytes → SyncOutcome) (name : Bytes) (h : Handle) :
    Except Halt Snapshot :=
  match s.logs h with
  | none => pure s
  | some log => do
    let (db, failed) ← syncDMap s.db partID name log (out name)
    pure ({ s with db := db }.setLog h ({ log with m := ∅ }.relog failed))

def syncEach (s : Snapshot) (partID : UInt64) (out : Bytes → SyncOutcome) :
    List (Sigma fun _ : Bytes => Handle) → Except Halt Snapshot
  | [] => pure s
  | ⟨name, h⟩ :: entries => do
    let s ← s.syncEntry partID out name h
    syncEach s partID out entries

/-- A sync round of a partition, which takes a worker that still runs. -/
def sync (s : Snapshot) (partID : UInt64) (out : Bytes → SyncOutcome) : Except Halt Snapshot :=
  if s.workers partID = some .running then s.syncEach partID out (s.oplogs partID).entries else pure s

/-- The new oplog takes the place of an earlier one of the name. A worker is started unless the
partition has had one. -/
def registerDMap (s : Snapshot) (h : Handle) (str : Storage) : Snapshot × Option BadgerError :=
  match s.db.registerOnBadger h.dkey h.partID h.name with
  | .error e => (s, some e)
  | .ok db =>
    let s := { s with db := db }.setOplogs h.partID ((s.oplogs h.partID).insert h.name h)
    let s := s.setLog h ⟨∅, str⟩
    (if s.workers h.partID = none then s.setWorker h.partID .running else s, none)

/-- The worker of a partition without oplogs is cancelled and stays in the table. -/
def unregisterDMap (s : Snapshot) (dkey : DKey) (partID : UInt64) (name : Bytes) : Snapshot × Option BadgerError :=
  if (s.oplogs partID).entries = [] then (s, none)
  else
    match s.db.unregisterOnBadger dkey partID name with
    | .error e => (s, some e)
    | .ok db =>
      let dmaps := (s.oplogs partID).erase name
      let s := { s with db := db }.setOplogs partID dmaps
      (if dmaps.entries = [] then s.setWorker partID .cancelled else s, none)

/-- The values go first; the record of the hkeys stays. -/
def destroyDMap (s : Snapshot) (dkey : DKey) (partID : UInt64) (name : Bytes) : Snapshot × Option BadgerError :=
  match s.db.hkeys partID name with
  | .error e => (s, some e)
  | .ok hkeys => { s with db := s.db.deleteValues hkeys }.unregisterDMap dkey partID name

/-- The last syncs of the workers, in the order in which they finish. The store is closed then. -/
def shutdown (s : Snapshot) (out : UInt64 → Bytes → SyncOutcome) : List UInt64 → Except Halt Snapshot
  | [] => pure s
  | partID :: partIDs => do
    let s ← s.sync partID (out partID)
    shutdown s out partIDs

end Snapshot

/-- What a member does to its snapshot. A dmap is created by any first access to its name. A put
and a delete go to a dmap object that has been created before, registered or not. `logFirst` is the
delete of an owner, the others log a delete only if it has succeeded. -/
inductive SnapshotOp
  | create (h : Handle)
  | put (h : Handle) (key : Bytes) (ttl : Int64) (value : Bytes) (mmaps : List Bool)
  | delete (h : Handle) (key : Bytes) (mmapOk logFirst : Bool)
  | merge (h : Handle) (order : Nat → List UInt64) (mmapOk : Bool)
  | mergeExit (h : Handle)
  | sync (partID : UInt64) (out : Bytes → SyncOutcome)
  | unregister (dkey : DKey) (partID : UInt64) (name : Bytes)
  | destroy (dkey : DKey) (partID : UInt64) (name : Bytes)

/-- The hash function and the number of partitions. -/
structure Hashing where
  sum64 : Bytes → UInt64
  partitionCount : UInt64

namespace Snapshot

variable (hashing : Hashing)

inductive Step : Snapshot → SnapshotOp → Snapshot → Prop
  | create {s h str} (fresh : s.logs h = none) (made : Storage.new true 0 = .ok str) :
      Step s (.create h) (s.registerDMap h str).1
  | put {s h key ttl value mmaps log str err} (found : s.logs h = some log)
      (placed : getHKey hashing.sum64 h.name key % hashing.partitionCount = h.partID)
      (run : log.str.put mmaps (getHKey hashing.sum64 h.name key) ⟨key, ttl, value⟩ = .ok (str, err)) :
      Step s (.put h key ttl value mmaps) (s.setLog h ⟨if err = none then
        log.m.insert (getHKey hashing.sum64 h.name key) .put else log.m, str⟩)
  | delete {s h key mmapOk logFirst log str err} (found : s.logs h = some log)
      (placed : getHKey hashing.sum64 h.name key % hashing.partitionCount = h.partID)
      (run : log.str.delete mmapOk (getHKey hashing.sum64 h.name key) = .ok (str, err)) :
      Step s (.delete h key mmapOk logFirst) (s.setLog h ⟨if logFirst ∨ err = none then
        log.m.insert (getHKey hashing.sum64 h.name key) .delete else log.m, str⟩)
  | merge {s h order mmapOk done log str} (found : s.logs h = some log) (orders : log.str.MergeOrder order)
      (run : log.str.chunkedMergeTables order mmapOk = .ok (done, str)) :
      Step s (.merge h order mmapOk) (s.setLog h { log with str := str })
  | mergeExit {s h log} (found : s.logs h = some log) :
      Step s (.mergeExit h) (s.setLog h { log with str := { log.str with merging := false } })
  | sync {s s' partID out} (run : s.sync partID out = .ok s') : Step s (.sync partID out) s'
  | unregister {s dkey partID name} : Step s (.unregister dkey partID name) (s.unregisterDMap dkey partID name).1
  | destroy {s dkey partID name} : Step s (.destroy dkey partID name) (s.destroyDMap dkey partID name).1

/-- The state after `New` on an empty directory. -/
def empty : Snapshot := ⟨fun _ => none, fun _ => none, fun _ => ∅, fun _ => none⟩

def system : Transitions Snapshot SnapshotOp where
  init s := s = empty
  step := Step hashing

/-- One partition, and a hash function that is constant. -/
def soloHashing : Hashing := ⟨fun _ => 7, 1⟩

/-- The object of the dmap `d` that is created first. -/
def firstDMap : Handle := ⟨.primary, 0, [100], 0⟩

/-- The object of the same dmap when it is created again. -/
def secondDMap : Handle := ⟨.primary, 0, [100], 1⟩

end Snapshot

end Olric
