import Mathlib.Data.List.Nodup
import Olric.Node.Commands

namespace Olric

namespace Node

def setPartition (s : Node) (p : Place) (part : Partition) : Node :=
  { s with partition := Function.update s.partition p part }

def setDMap (s : Node) (r : Ref) (dm : DMap) : Node :=
  { s with dmaps := Function.update s.dmaps r (some dm) }

def setOplogs (s : Node) (partID : UInt64) (logs : Finmap fun _ : Bytes => Ref) : Node :=
  { s with oplogs := Function.update s.oplogs partID logs }

def setSyncing (s : Node) (syncing : List Tid) : Node := { s with syncing }

/-- The registry after `UnregisterDMap`: a partition that has no oplog is left alone, and an
error of Badger leaves the registry unchanged. -/
def unregister (s : Node) (partID : UInt64) (name : Bytes) (ok : Bool) : Node :=
  if ok then s.setOplogs partID ((s.oplogs partID).erase name) else s

/-- What the command of a goroutine can reply and what it leaves behind. A command that has to
wait, or that panics, has no reply. Errors of system calls and of Badger, the answers of other
members, the routing table, the clock and the end of a timeout are not determined by the state. The owners list of a
primary partition is not empty, as every use of it panics otherwise. -/
def exec (tid : Tid) (s : Node) : (c : Cmd) → c.Reply → Node → Prop
  | .load p name, reply, s' => reply = (s.partition p).m.lookup name ∧ s' = s
  | .store p name r, _, s' => s' = s.setPartition p { s.partition p with m := (s.partition p).m.insert name r }
  | .remove p name, _, s' => s' = s.setPartition p { s.partition p with m := (s.partition p).m.erase name }
  | .addCount p delta, _, s' => s' = s.setPartition p { s.partition p with count := (s.partition p).count + delta }
  | .names p, reply, s' => reply.Nodup ∧ (∀ name, name ∈ reply ↔ name ∈ (s.partition p).m) ∧ s' = s
  | .lockPartition p, _, s' =>
    (s.partition p).mutex = none ∧ s' = s.setPartition p { s.partition p with mutex := some tid }
  | .unlockPartition p, _, s' => s' = s.setPartition p { s.partition p with mutex := none }
  | .newStorage, none, s' => s' = s
  | .newStorage, some r, s' =>
    s.dmaps r = none ∧ ∃ str, Storage.new true 0 = .ok str ∧ s' = s.setDMap r ⟨str, none, none, none⟩
  | .importStorage _, none, s' => s' = s
  | .importStorage tr, some r, s' =>
    s.dmaps r = none ∧ ∃ str, Storage.importTable true tr = .ok str ∧ s' = s.setDMap r ⟨str, none, none, none⟩
  | .setLocker r, _, s' => ∃ dm, s.dmaps r = some dm ∧ s' = s.setDMap r { dm with locker := some newLocker }
  | .lock r, _, s' => ∃ dm, s.dmaps r = some dm ∧ dm.mutex = none ∧ s' = s.setDMap r { dm with mutex := some tid }
  | .unlock r, _, s' => ∃ dm, s.dmaps r = some dm ∧ s' = s.setDMap r { dm with mutex := none }
  | .lockerLength r, reply, s' => ∃ dm l, s.dmaps r = some dm ∧ dm.locker = some l ∧ reply = l.length ∧ s' = s
  | .lockerCheck r key, reply, s' => ∃ dm l, s.dmaps r = some dm ∧ dm.locker = some l ∧ reply = l.check key ∧ s' = s
  | .lockerEnter r key, reply, s' => ∃ dm l, s.dmaps r = some dm ∧ dm.locker = some l ∧ reply = (l.enter key).2 ∧
    s' = s.setDMap r { dm with locker := some (l.enter key).1 }
  | .lockerAcquire r i, _, s' => ∃ dm l l', s.dmaps r = some dm ∧ dm.locker = some l ∧ l.acquire i = some l' ∧
    s' = s.setDMap r { dm with locker := some l' }
  | .lockerDec r i, _, s' => ∃ dm l, s.dmaps r = some dm ∧ dm.locker = some l ∧
    s' = s.setDMap r { dm with locker := some (l.dec i) }
  | .lockerUnlock r key, reply, s' => ∃ dm l l', s.dmaps r = some dm ∧ dm.locker = some l ∧
    l.unlock key = some (l', reply) ∧ s' = s.setDMap r { dm with locker := some l' }
  | .unlockNotifier r key, reply, s' =>
    ∃ dm l, s.dmaps r = some dm ∧ dm.locker = some l ∧ reply = l.unlockNotifier key ∧ s' = s
  | .waitUnlock r channel _, reply, s' => ∃ dm l, s.dmaps r = some dm ∧ dm.locker = some l ∧
    (reply = true → ∃ i, channel = some i ∧ l.closed i = true) ∧ s' = s
  | .put r hkey value, reply, s' => ∃ dm mmaps str, s.dmaps r = some dm ∧
    dm.str.put mmaps hkey value = .ok (str, reply) ∧ s' = s.setDMap r { dm with str := str }
  | .get r hkey, reply, s' => ∃ dm, s.dmaps r = some dm ∧ dm.str.get hkey = .ok reply ∧ s' = s
  | .getRaw r hkey, reply, s' => ∃ dm, s.dmaps r = some dm ∧ dm.str.getRaw hkey = .ok reply ∧ s' = s
  | .delete r hkey, reply, s' => ∃ dm mmapOk str, s.dmaps r = some dm ∧
    dm.str.delete mmapOk hkey = .ok (str, reply) ∧ s' = s.setDMap r { dm with str := str }
  | .check r hkey, reply, s' => ∃ dm, s.dmaps r = some dm ∧ dm.str.check hkey = .ok reply ∧ s' = s
  | .visits r, reply, s' => ∃ dm, s.dmaps r = some dm ∧ dm.str.tables ≠ [] ∧ dm.str.Visits reply ∧ s' = s
  | .len r, reply, s' => ∃ dm, s.dmaps r = some dm ∧ reply = dm.str.len ∧ s' = s
  | .exportTable r, reply, s' => ∃ dm, s.dmaps r = some dm ∧ reply = dm.str.exportTable ∧ s' = s
  | .close r, reply, s' => ∃ dm munmapOk, s.dmaps r = some dm ∧ reply = (dm.str.close munmapOk).2 ∧
    s' = s.setDMap r { dm with str := (dm.str.close munmapOk).1 }
  | .log r hkey op, _, s' => ∃ dm log, s.dmaps r = some dm ∧ dm.oplog = some log ∧
    s' = s.setDMap r { dm with oplog := some (log.insert hkey op) }
  | .drain r, reply, s' => ∃ dm log, s.dmaps r = some dm ∧ dm.oplog = some log ∧
    (reply.map Prod.fst).Nodup ∧ (∀ hkey op, (hkey, op) ∈ reply ↔ log.lookup hkey = some op) ∧
    s' = s.setDMap r { dm with oplog := some ∅ }
  | .relog r ops, _, s' => ∃ dm log, s.dmaps r = some dm ∧ dm.oplog = some log ∧
    s' = s.setDMap r { dm with oplog := some (ops.foldl
      (fun log e => if e.1 ∈ log then log else log.insert e.1 e.2) log) }
  | .register p name r, reply, s' => s.syncing = [] ∧
    if reply then ∃ dm, s.dmaps r = some dm ∧
      s' = (s.setOplogs p.id ((s.oplogs p.id).insert name r)).setDMap r { dm with oplog := some ∅ }
    else s' = s
  | .unregister p name, reply, s' => s.syncing = [] ∧ s' = s.unregister p.id name reply
  | .destroySnapshot p name, reply, s' => s.syncing = [] ∧ s' = s.unregister p.id name reply
  | .beginSync partID, reply, s' => (reply.map Prod.fst).Nodup ∧
    (∀ name r, (name, r) ∈ reply ↔ (s.oplogs partID).lookup name = some r) ∧ s' = s.setSyncing (tid :: s.syncing)
  | .endSync, _, s' => s' = s.setSyncing (s.syncing.erase tid)
  | .badger, _, s' => s' = s
  | .owners p, reply, s' => (p.backup = false → reply ≠ []) ∧ s' = s
  | .numMembers, reply, s' => 0 < reply ∧ s' = s
  | .now, _, s' => s' = s
  | .request _ _, _, s' => s' = s
  | .requestAll dst _, reply, s' => reply.length = dst.length ∧ s' = s
  | .go _, _, s' => s' = s

end Node

/-- `Close`, `DestroyDMap` or `UnregisterDMap` has returned an error. -/
def Cmd.fails : (c : Cmd) → c.Reply → Bool
  | .close _, ok | .destroySnapshot .., ok | .unregister .., ok => !ok
  | _, _ => false

/-- A member that keeps everything in memory and makes no backups. -/
def soloConfig : Config where
  this := ⟨[], 0⟩
  partitionCount := 1
  backupCount := 0
  asyncBackup := false
  snapshotMode := false
  counted := le_rfl

def emptyNode : Node where
  partition _ := ⟨0, ∅, none⟩
  dmaps _ := none
  oplogs _ := ∅
  syncing := []

/-- A member that has been restored with one dmap. -/
def restoredNode : Node where
  partition p := if p = ⟨false, 0⟩ then ⟨1, Finmap.singleton [100] 0, none⟩ else ⟨0, ∅, none⟩
  dmaps r := if r = 0 then some ⟨⟨[⟨∅, .zeroed 1048576, 0, 1048576, 0, 0⟩], false, false⟩, none, some newLocker, none⟩
    else none
  oplogs _ := ∅
  syncing := []

theorem restoredNode_lookup : (restoredNode.partition ⟨false, 0⟩).m.lookup [100] = some 0 := by simp [restoredNode]

end Olric
